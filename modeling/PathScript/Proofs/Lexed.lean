import PathScript.Proofs.Groups

/-! # Streams and their texts

Compilation takes tokens from the front of a stream and cuts texts out of the
source by the places of the tokens it took. Here the two are tied together: a
stream that was read from a source is followed through its rests and the insides
of its groups, and the text from the first to the last of some tokens, taken by
itself, is read as the same tokens. -/

namespace PathScript

/-- A token without its place. -/
abbrev Word := TokenKind × List Char

def Token.word (t : Token) : Word := (t.kind, t.lexeme.chars)

/-! ## Streams -/

namespace Tokens

def prepend : List Token → Tokens → Tokens
  | [], ts => ts
  | t :: more, ts => cons t (prepend more ts)

@[simp] theorem prepend_cons (t : Token) (more : List Token) (ts : Tokens) :
    prepend (t :: more) ts = cons t (prepend more ts) := rfl

theorem prepend_append (a b : List Token) (ts : Tokens) : prepend (a ++ b) ts = prepend a (prepend b ts) := by
  induction a with
  | nil => rfl
  | cons t more ih => rw [List.cons_append, prepend_cons, ih, prepend_cons]

/-- A stream that is left of another when tokens are taken. -/
def Suffix (rest ts : Tokens) : Prop := ∃ taken, ts = prepend taken rest

namespace Suffix

theorem refl (ts : Tokens) : Suffix ts ts := ⟨[], rfl⟩

theorem cons {t : Token} {rest ts : Tokens} (h : Suffix rest ts) : Suffix rest (.cons t ts) := by
  obtain ⟨taken, rfl⟩ := h
  exact ⟨t :: taken, rfl⟩

theorem trans {a b c : Tokens} (hab : Suffix a b) (hbc : Suffix b c) : Suffix a c := by
  obtain ⟨taken, rfl⟩ := hab
  obtain ⟨more, rfl⟩ := hbc
  exact ⟨more ++ taken, (prepend_append _ _ _).symm⟩

end Suffix

/-- A stream that reaches the end of its text, and the words on the way. -/
inductive Spells : Tokens → List Word → Prop where
  | eof (p : Nat) : Spells (.eof p) []
  | cons {t : Token} {rest : Tokens} {words : List Word} (h : Spells rest words) : Spells (.cons t rest) (t.word :: words)

theorem Spells.unique {ts : Tokens} {words words' : List Word} (h : ts.Spells words) (h' : ts.Spells words') :
    words = words' := by
  induction h generalizing words' with
  | eof p => cases h'; rfl
  | cons _ ih =>
    cases h' with
    | cons h' => rw [ih h']

/-- A stream that reaches the end of its text. -/
def Clean (ts : Tokens) : Prop := ∃ words, ts.Spells words

namespace Clean

theorem eof (p : Nat) : Clean (.eof p) := ⟨[], .eof p⟩

theorem cons_iff {t : Token} {rest : Tokens} : Clean (.cons t rest) ↔ Clean rest := by
  constructor
  · rintro ⟨words, h⟩
    cases h with
    | cons h => exact ⟨_, h⟩
  · rintro ⟨words, h⟩
    exact ⟨_, .cons h⟩

theorem not_stuck {p : Nat} : ¬ Clean (.stuck p) := by
  rintro ⟨words, h⟩
  cases h

theorem suffix_iff {rest ts : Tokens} (h : Suffix rest ts) : ts.Clean ↔ rest.Clean := by
  obtain ⟨taken, rfl⟩ := h
  induction taken with
  | nil => exact Iff.rfl
  | cons t taken ih => rw [prepend_cons, cons_iff, ih]

end Clean

end Tokens

/-! ## Cursors -/

namespace Cursor

variable {c c' : Cursor} {l : Lexeme} {x y z : List Char}

/-- What lies between a cursor and the next: a gap, and the lexeme. -/
structure Passes (c : Cursor) (l : Lexeme) (c' : Cursor) (gap : List Char) : Prop where
  rest : c.rest = gap ++ l.chars ++ c'.rest
  start : l.span.start = c.pos + Text.byteLength gap
  stop : l.span.stop = l.span.start + Text.byteLength l.chars
  pos : c'.pos = l.span.stop
  after : c'.after = c.after

theorem token_of_lexeme (h : c.lexeme = .ok (l, c')) : Scan.token c.after c.pos c.rest = .ok (l.kind, c'.rest) := by
  unfold lexeme at h
  cases ht : Scan.token c.after c.pos c.rest with
  | error e => rw [ht] at h; cases h
  | ok found =>
    rw [ht] at h
    cases h
    rfl

/-- The lexeme of a token, as the characters up to what the token leaves. -/
theorem lexeme_of_token {kind : TokenKind} {used rest : List Char}
    (h : Scan.token c.after c.pos c.rest = .ok (kind, rest)) (hrest : c.rest = used ++ rest) : c.lexeme =
      .ok (⟨kind, ⟨c.pos, c.pos + Text.byteLength used⟩, used⟩, ⟨c.pos + Text.byteLength used, rest, c.after⟩) := by
  have htake : c.rest.take (c.rest.length - rest.length) = used := by
    rw [hrest, List.length_append, Nat.add_sub_cancel, List.take_left]
  rw [lexeme, h]
  simp only [Except.map, cut, htake]

theorem passes_of_lexeme (h : c.lexeme = .ok (l, c')) : Passes c l c' [] := by
  have ht := token_of_lexeme h
  obtain ⟨used, hu⟩ := Scan.suffix_token ht
  have htake : c.rest.take (c.rest.length - c'.rest.length) = used := by
    rw [← hu, List.length_append, Nat.add_sub_cancel, List.take_left]
  unfold lexeme at h
  rw [ht] at h
  have hl := congrArg Prod.fst (Except.ok.inj h)
  have hc := congrArg Prod.snd (Except.ok.inj h)
  simp only [cut, htake] at hl hc
  rw [← hl, ← hc]
  exact ⟨hu.symm, rfl, rfl, rfl, rfl⟩

theorem skipTrivia_eq (h : c.skipTrivia = .ok c') :
    Scan.trivia c.after c.pos c.rest = .ok (c'.pos, c'.rest) ∧ c'.after = c.after := by
  unfold skipTrivia at h
  cases ht : Scan.trivia c.after c.pos c.rest with
  | error e => rw [ht] at h; cases h
  | ok found =>
    rw [ht] at h
    cases h
    exact ⟨rfl, rfl⟩

theorem chars_of_group {d : Delim} (h : c.lexeme = .ok (l, c')) (hk : l.kind = .group d) :
    ∃ text, Scan.Balanced text ∧ l.chars = d.opener :: (text ++ [d.closer]) := by
  have ht := token_of_lexeme h
  rw [hk] at ht
  obtain ⟨text, htext, hrest⟩ := Scan.balanced_of_group ht
  have hchars : l.chars ++ c'.rest = d.opener :: (text ++ [d.closer]) ++ c'.rest := by
    rw [(passes_of_lexeme h).rest] at hrest
    simpa using hrest
  exact ⟨text, htext, List.append_cancel_right hchars⟩

/-- A step to the next lexeme, in two: past the gap, and past the lexeme. -/
theorem next_eq (h : c.next = .ok (l, c')) : ∃ c₁, c.skipTrivia = .ok c₁ ∧ c₁.lexeme = .ok (l, c') := by
  unfold next at h
  cases hs : c.skipTrivia with
  | error e => rw [hs] at h; cases h
  | ok c₁ =>
    rw [hs] at h
    exact ⟨c₁, rfl, h⟩

theorem passes_of_next (h : c.next = .ok (l, c')) : ∃ gap, Passes c l c' gap := by
  obtain ⟨c₁, hs, hl⟩ := next_eq h
  obtain ⟨ht, hafter⟩ := skipTrivia_eq hs
  obtain ⟨gap, hrest, hpos⟩ := Scan.trivia_eq ht
  obtain ⟨rest, start, stop, pos, after⟩ := passes_of_lexeme hl
  refine ⟨gap, ?_, ?_, stop, pos, after.trans hafter⟩
  · rw [hrest, rest, List.nil_append, List.append_assoc]
  · rw [start, hpos]
    rfl

/-- The lexeme at a cursor, if it is one of a path, is the same in a text that is cut behind it. -/
theorem lexeme_cut (h : c.lexeme = .ok (l, c')) (hk : l.kind.isPathPart = true) (hl : l.chars ≠ [])
    (hx : c.rest = x ++ z) (hy : c'.rest = y ++ z) (pos : Nat) :
    ∃ l' p', (⟨pos, x, none⟩ : Cursor).lexeme = .ok (l', ⟨p', y, none⟩) ∧ l'.kind = l.kind ∧ l'.chars = l.chars := by
  have hrest := (passes_of_lexeme h).rest
  rw [hx, hy, List.nil_append, ← List.append_assoc] at hrest
  have hxy : x = l.chars ++ y := List.append_cancel_right hrest
  have ht := token_of_lexeme h
  rw [hx, hy] at ht
  have hcut := Scan.token_cut hk ht (by rw [hxy]; simp [hl]) pos
  unfold lexeme
  simp only [hcut]
  refine ⟨_, _, rfl, rfl, ?_⟩
  rw [hxy]
  simp

/-- The next lexeme, if it is one of a path, is the same in a text that is cut behind it. -/
theorem next_cut (h : c.next = .ok (l, c')) (hk : l.kind.isPathPart = true) (hl : l.chars ≠ [])
    (hx : c.rest = x ++ z) (hy : c'.rest = y ++ z) (pos : Nat) :
    ∃ l' p', (⟨pos, x, none⟩ : Cursor).next = .ok (l', ⟨p', y, none⟩) ∧ l'.kind = l.kind ∧ l'.chars = l.chars := by
  obtain ⟨c₁, hs, hlex⟩ := next_eq h
  have hrest : c₁.rest = (l.chars ++ y) ++ z := by
    rw [(passes_of_lexeme hlex).rest, hy, List.nil_append, List.append_assoc]
  have ht := (skipTrivia_eq hs).1
  rw [hx, hrest] at ht
  obtain ⟨p, ht'⟩ := Scan.trivia_cut ht (by simp [hl]) pos
  obtain ⟨l', p', hl', hkind, hchars⟩ := lexeme_cut hlex hk hl hrest hy p
  refine ⟨l', p', ?_, hkind, hchars⟩
  unfold next skipTrivia
  simp only [ht']
  exact hl'

/-! ## Tokens -/

theorem tokens_eq_cons {t : Token} {rest : Tokens} (h : c.tokens = .cons t rest) :
    ∃ c', c.next = .ok (t.lexeme, c') ∧ t.kind ≠ .eof ∧ c'.rest.length < c.rest.length ∧ rest = c'.tokens ∧
      ∀ d, t.kind = .group d → t.inner = (inside t.lexeme).tokens := by
  rw [tokens] at h
  split at h
  next => cases h
  next l c' hn =>
    split at h
    next => cases h
    next heof =>
      split at h
      next hlt =>
        cases h
        refine ⟨c', hn, heof, hlt, rfl, fun d hd => ?_⟩
        have hd : l.kind = .group d := hd
        simp only [hd]
      next => cases h

theorem tokens_of_next (h : c.next = .ok (l, c')) (heof : l.kind ≠ .eof) (hlt : c'.rest.length < c.rest.length) :
    ∃ inner, c.tokens = .cons ⟨l, inner⟩ c'.tokens := by
  rw [tokens]
  split
  next heq => rw [h] at heq; cases heq
  next heq =>
    rw [h] at heq
    cases heq
    rw [if_neg heof, dif_pos hlt]
    exact ⟨_, rfl⟩

/-- The first word of a stream that reaches the end of its text, if there is one, is that of the next lexeme. -/
theorem next_of_spells {words : List Word} (h : c.tokens.Spells words) :
    ∃ l c', c.next = .ok (l, c') ∧ (words = [] ∧ l.kind = .eof ∨
      ∃ more, words = (l.kind, l.chars) :: more ∧ c'.tokens.Spells more) := by
  rw [tokens] at h
  split at h
  next => cases h
  next l c' hn =>
    refine ⟨l, c', hn, ?_⟩
    split at h
    next heof =>
      cases h
      exact .inl ⟨rfl, heof⟩
    next =>
      split at h
      next =>
        cases h with
        | cons h => exact .inr ⟨_, rfl, h⟩
      next => cases h

/-- Where neither a blank nor a comment stands, the next lexeme starts right there. -/
theorem next_eq_lexeme {ch : Char} {cs : List Char} (hrest : c.rest = ch :: cs)
    (hblank : Text.isTokenBlank ch = false) (hslash : ch ≠ '/') : c.next = c.lexeme := by
  have hs : c.skipTrivia = .ok c := by
    obtain ⟨pos, rest, after⟩ := c
    cases hrest
    simp only [skipTrivia, Scan.trivia, hblank, hslash, Bool.false_eq_true, if_false]
    rfl
  unfold next
  rw [hs]
  rfl

theorem next_of_nil (pos : Nat) : (⟨pos, [], none⟩ : Cursor).next = .ok (⟨.eof, ⟨pos, pos⟩, []⟩, ⟨pos, [], none⟩) := by
  simp [next, skipTrivia, Scan.trivia, Except.bind, Except.map, lexeme, Scan.token, cut]

theorem tokens_of_nil (pos : Nat) : (⟨pos, [], none⟩ : Cursor).tokens = .eof pos := by
  rw [tokens]
  split
  next heq => rw [next_of_nil] at heq; cases heq
  next heq =>
    rw [next_of_nil] at heq
    cases heq
    rw [if_pos rfl]

theorem skipTrivia_skipTrivia (h : c.skipTrivia = .ok c') : c'.skipTrivia = .ok c' := by
  obtain ⟨ht, hafter⟩ := skipTrivia_eq h
  unfold skipTrivia
  rw [hafter, Scan.trivia_trivia ht]
  simp only [Except.map, ← hafter]

theorem next_of_skipTrivia (h : c.skipTrivia = .ok c') : c'.next = c'.lexeme := by
  unfold next
  rw [skipTrivia_skipTrivia h]
  rfl

theorem eq_of_empty (h : c.lexeme = .ok (l, c')) (hl : l.chars = []) : c' = c := by
  obtain ⟨hrest, hstart, hstop, hpos, hafter⟩ := passes_of_lexeme h
  rw [hl] at hrest hstop
  obtain ⟨pos, rest, after⟩ := c'
  obtain ⟨pos₁, rest₁, after₁⟩ := c
  simp only [List.nil_append, Text.byteLength_nil, Nat.add_zero] at hrest hstart hstop hpos hafter
  subst hrest hafter
  rw [hpos, hstop, hstart]

/-- Behind an empty name the end is never reached. -/
theorem chars_ne_nil {t : Token} {rest : Tokens} (h : c.tokens = .cons t rest) (hclean : rest.Clean) :
    t.lexeme.chars ≠ [] := by
  intro hnil
  obtain ⟨c', hn, heof, -, rfl, -⟩ := tokens_eq_cons h
  obtain ⟨c₁, hs, hl⟩ := next_eq hn
  obtain rfl := eq_of_empty hl hnil
  have hagain : c'.next = .ok (t.lexeme, c') := (next_of_skipTrivia hs).trans hl
  have hstuck : c'.tokens = .stuck t.span.start := by
    rw [tokens]
    split
    next heq => rw [hagain] at heq; cases heq
    next heq =>
      rw [hagain] at heq
      cases heq
      exact (if_neg heof).trans (dif_neg (Nat.lt_irrefl _))
  rw [hstuck] at hclean
  exact Tokens.Clean.not_stuck hclean

/-- Tokens read from one cursor up to another, none of them empty. -/
inductive Reads : Cursor → List Token → Cursor → Prop where
  | nil (c : Cursor) : Reads c [] c
  | cons {c c₁ c₂ : Cursor} {t : Token} {more : List Token} (next : c.next = .ok (t.lexeme, c₁))
      (noEof : t.kind ≠ .eof) (chars : t.lexeme.chars ≠ []) (reads : Reads c₁ more c₂) :
      Reads c (t :: more) c₂

namespace Reads

variable {a b taken : List Token}

theorem of_tokens {rest : Tokens} (h : c.tokens = .prepend taken rest) (hclean : rest.Clean) :
    ∃ c', Reads c taken c' ∧ rest = c'.tokens := by
  induction taken generalizing c with
  | nil => exact ⟨c, .nil c, h.symm⟩
  | cons t more ih =>
    obtain ⟨c₁, hn, heof, -, hrest, -⟩ := tokens_eq_cons h
    obtain ⟨c', hr, ht⟩ := ih hrest.symm
    have hmore : (Tokens.prepend more rest).Clean := (Tokens.Clean.suffix_iff ⟨more, rfl⟩).mpr hclean
    exact ⟨c', .cons hn heof (chars_ne_nil h hmore) hr, ht⟩

theorem of_append (h : Reads c (a ++ b) c') : ∃ c₁, Reads c a c₁ ∧ Reads c₁ b c' := by
  induction a generalizing c with
  | nil => exact ⟨c, .nil c, h⟩
  | cons t more ih =>
    cases h with
    | cons next noEof chars reads =>
      obtain ⟨c₁, ha, hb⟩ := ih reads
      exact ⟨c₁, .cons next noEof chars ha, hb⟩

theorem text (h : Reads c taken c') : ∃ used, c.rest = used ++ c'.rest ∧ c'.pos = c.pos + Text.byteLength used := by
  induction h with
  | nil c => exact ⟨[], rfl, rfl⟩
  | @cons c c₁ c₂ t more next _ _ reads ih =>
    obtain ⟨used, hrest, hpos⟩ := ih
    obtain ⟨gap, hp⟩ := passes_of_next next
    refine ⟨gap ++ t.lexeme.chars ++ used, ?_, ?_⟩
    · rw [hp.rest, hrest, List.append_assoc _ used]
    · rw [hpos, hp.pos, hp.stop, hp.start]
      simp only [Text.byteLength_append]
      omega

theorem pos_le (h : Reads c taken c') : c.pos ≤ c'.pos := by
  obtain ⟨used, -, hpos⟩ := h.text
  omega

theorem stop_last {t : Token} (h : Reads c (taken ++ [t]) c') : c'.pos = t.span.stop := by
  obtain ⟨c₁, -, hlast⟩ := of_append h
  cases hlast with
  | cons next _ _ reads =>
    cases reads
    obtain ⟨gap, hp⟩ := passes_of_next next
    exact hp.pos

theorem bounds {t : Token} (h : Reads c taken c') (ht : t ∈ taken) :
    c.pos ≤ t.span.start ∧ t.span.start ≤ t.span.stop ∧ t.span.stop ≤ c'.pos := by
  induction h with
  | nil c => cases ht
  | @cons c c₁ c₂ t' more next _ _ reads ih =>
    obtain ⟨gap, hp⟩ := passes_of_next next
    rcases List.mem_cons.mp ht with rfl | ht
    · have := reads.pos_le
      have hstart : t.span.start = c.pos + Text.byteLength gap := hp.start
      have hstop : t.span.stop = t.span.start + Text.byteLength t.lexeme.chars := hp.stop
      have hpos : c₁.pos = t.span.stop := hp.pos
      omega
    · obtain ⟨hlo, hmid, hhi⟩ := ih ht
      have hstart := hp.start
      have hstop := hp.stop
      have hpos := hp.pos
      exact ⟨by omega, hmid, hhi⟩

theorem from_first {t : Token} {more : List Token} (h : Reads c (t :: more) c') :
    ∃ gap c₁, c.rest = gap ++ c₁.rest ∧ c₁.pos = c.pos + Text.byteLength gap ∧ c₁.pos = t.span.start ∧
      Reads c₁ (t :: more) c' := by
  cases h with
  | cons hnext noEof chars reads =>
    obtain ⟨c₁, hs, hl⟩ := next_eq hnext
    obtain ⟨gap, hrest, hpos⟩ := Scan.trivia_eq (skipTrivia_eq hs).1
    have hstart := (passes_of_lexeme hl).start
    refine ⟨gap, c₁, hrest, hpos, hstart.symm, ?_⟩
    exact .cons ((next_of_skipTrivia hs).trans hl) noEof chars reads

/-- Tokens of a path are read again from their text alone, up to its end. -/
theorem spells (h : Reads c taken c') (hk : ∀ t ∈ taken, t.kind.isPathPart = true) (hne : taken ≠ [])
    (hx : c.rest = x ++ c'.rest) (pos : Nat) : (⟨pos, x, none⟩ : Cursor).tokens.Spells (taken.map Token.word) := by
  induction h generalizing x pos with
  | nil c => exact absurd rfl hne
  | @cons c c₁ c₂ t more next noEof chars reads ih =>
    obtain ⟨y, hy, -⟩ := reads.text
    obtain ⟨l, p, hnext, hkind, hchars⟩ := next_cut next (hk t (by simp)) chars hx hy pos
    have hlt : y.length < x.length := by
      obtain ⟨gap, hp⟩ := passes_of_next hnext
      have := congrArg List.length hp.rest
      have hpos := List.length_pos_iff.mpr chars
      simp only [List.length_append, hchars] at this
      omega
    obtain ⟨inner, htokens⟩ := tokens_of_next hnext (by rw [hkind]; exact noEof) hlt
    have hword : t.word = (⟨l, inner⟩ : Token).word := by
      simp only [Token.word, Token.kind, hkind, hchars]
    rw [htokens, List.map_cons, hword]
    refine .cons ?_
    cases hmore : more with
    | nil =>
      subst hmore
      cases reads
      have hnil : y = [] := List.append_cancel_right (hy.symm : y ++ _ = [] ++ _)
      rw [hnil, tokens_of_nil]
      exact .eof p
    | cons t' more' =>
      rw [← hmore]
      exact ih (fun t ht => hk t (by simp [ht])) (by simp [hmore]) hy p

end Reads

/-! ## Places in a source -/

/-- A cursor that stands in a source, at the place it says. -/
def Within (source : List Char) (c : Cursor) : Prop :=
  ∃ before behind, source = before ++ c.rest ++ behind ∧ c.pos = Text.byteLength before

namespace Within

variable {source : List Char}

theorem advance {used : List Char} (h : c.Within source) (hrest : c.rest = used ++ c'.rest)
    (hpos : c'.pos = c.pos + Text.byteLength used) : c'.Within source := by
  obtain ⟨before, behind, rfl, hp⟩ := h
  refine ⟨before ++ used, behind, ?_, ?_⟩
  · rw [hrest, List.append_assoc before used]
  · rw [hpos, hp, Text.byteLength_append]

theorem next (h : c.Within source) (hn : c.next = .ok (l, c')) : c'.Within source := by
  obtain ⟨gap, hrest, hstart, hstop, hpos, -⟩ := passes_of_next hn
  refine h.advance hrest ?_
  rw [hpos, hstop, hstart, Text.byteLength_append]
  omega

theorem inside {d : Delim} (h : c.Within source) (hn : c.next = .ok (l, c')) (hk : l.kind = .group d) :
    (inside l).Within source := by
  obtain ⟨before, behind, rfl, hp⟩ := h
  obtain ⟨gap, hrest, hstart, -⟩ := passes_of_next hn
  obtain ⟨c₁, -, hl⟩ := next_eq hn
  obtain ⟨text, -, hchars⟩ := chars_of_group hl hk
  have hinside : (Cursor.inside l).rest = text := by simp [Cursor.inside, hchars]
  refine ⟨before ++ gap ++ [d.opener], d.closer :: (c'.rest ++ behind), ?_, ?_⟩
  · rw [hinside, hrest, hchars]
    simp
  · simp only [Cursor.inside, hstart, hp, Text.byteLength_append, Text.byteLength_cons, Text.byteLength_nil,
      Scan.utf8Size_opener]

end Within

end Cursor

/-! ## Streams of a source -/

/-- A stream that was read from a source, or from the inside of a group of it. -/
def Tokens.Lexed (source : List Char) (ts : Tokens) : Prop := ∃ c : Cursor, c.Within source ∧ ts = c.tokens

namespace Tokens.Lexed

variable {source : List Char} {t : Token} {rest ts : Tokens}

theorem ofText (source : List Char) : (Tokens.ofText source).Lexed source :=
  ⟨.ofText source, ⟨[], [], by simp [Cursor.ofText], rfl⟩, rfl⟩

theorem tail (h : (cons t rest).Lexed source) : rest.Lexed source := by
  obtain ⟨c, hc, ht⟩ := h
  obtain ⟨c', hn, -, -, hrest, -⟩ := Cursor.tokens_eq_cons ht.symm
  exact ⟨c', hc.next hn, hrest⟩

theorem inner {d : Delim} (h : (cons t rest).Lexed source) (hk : t.kind = .group d) : t.inner.Lexed source := by
  obtain ⟨c, hc, ht⟩ := h
  obtain ⟨c', hn, -, -, -, hinner⟩ := Cursor.tokens_eq_cons ht.symm
  exact ⟨_, hc.inside hn hk, hinner d hk⟩

theorem suffix (h : ts.Lexed source) (hs : Suffix rest ts) : rest.Lexed source := by
  obtain ⟨taken, rfl⟩ := hs
  induction taken with
  | nil => exact h
  | cons t taken ih => exact ih h.tail

theorem cover_eq {more : List Token} {u : Token} (h : (cons t (prepend more rest)).Lexed source) (hclean : rest.Clean)
    (hu : u ∈ more) : t.span.cover u.span = ⟨t.span.start, u.span.stop⟩ := by
  obtain ⟨c, -, ht⟩ := h
  have ht : c.tokens = prepend (t :: more) rest := ht.symm
  obtain ⟨c', hr, -⟩ := Cursor.Reads.of_tokens ht hclean
  cases hr with
  | @cons _ c₁ _ _ _ next noEof chars reads =>
    obtain ⟨hu₁, hu₂, -⟩ := reads.bounds hu
    obtain ⟨-, ht₂, ht₃⟩ := (Cursor.Reads.cons next noEof chars (.nil c₁)).bounds (List.mem_singleton_self t)
    simp only [Span.cover, Span.mk.injEq]
    omega

/-- The text of some tokens of a path, and within it that of the first ones: cut out by the places of the tokens, it is
read as the same tokens. -/
theorem stretch {a b : List Token} {first last last' : Token} (h : (prepend (a ++ b) rest).Lexed source)
    (hclean : rest.Clean) (hk : ∀ t ∈ a, t.kind.isPathPart = true) (hfirst : a.head? = some first)
    (hlast : a.getLast? = some last) (hlast' : (a ++ b).getLast? = some last') :
    ∃ text more, Text.slice source first.span.start last'.span.stop = text ++ more ∧
      last.span.stop = first.span.start + Text.byteLength text ∧
      last'.span.stop = first.span.start + Text.byteLength (text ++ more) ∧
      ∀ pos, (⟨pos, text, none⟩ : Cursor).tokens.Spells (a.map Token.word) := by
  obtain ⟨c, hwithin, ht⟩ := h
  obtain ⟨c', hr, -⟩ := Cursor.Reads.of_tokens ht.symm hclean
  obtain ⟨tail, rfl⟩ : ∃ tail, a = first :: tail := by
    cases a with
    | nil => cases hfirst
    | cons t tail => cases hfirst; exact ⟨tail, rfl⟩
  obtain ⟨gap, c₁, hrest₁, hpos₁, hstart, hr⟩ := hr.from_first
  obtain ⟨before, behind, hsource, hbefore⟩ := hwithin.advance hrest₁ hpos₁
  have hr : c₁.Reads (first :: tail ++ b) c' := hr
  obtain ⟨c₂, hra, hrb⟩ := hr.of_append
  obtain ⟨text, htext, hpos₂⟩ := hra.text
  obtain ⟨more, hmore, hpos₃⟩ := hrb.text
  have hstop : c₂.pos = last.span.stop := by
    obtain ⟨init, heq⟩ := List.getLast?_eq_some_iff.mp hlast
    exact Cursor.Reads.stop_last (heq ▸ hra)
  have hstop' : c'.pos = last'.span.stop := by
    obtain ⟨init, heq⟩ := List.getLast?_eq_some_iff.mp hlast'
    exact Cursor.Reads.stop_last (heq ▸ hr)
  refine ⟨text, more, ?_, by omega, by rw [Text.byteLength_append]; omega, hra.spells hk (by simp) htext⟩
  have hlen : last'.span.stop - first.span.start = Text.byteLength (text ++ more) := by
    rw [Text.byteLength_append]; omega
  rw [Text.slice, hlen, ← hstart, hbefore, hsource, List.append_assoc, Text.dropBytes_append, htext, hmore,
    ← List.append_assoc, List.append_assoc, Text.takeBytes_append]

end Tokens.Lexed

end PathScript
