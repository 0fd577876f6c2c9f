import PathScript.Proofs.Lexed

/-! # Places of tokens

A token says where it stands by two byte offsets. Both stand between characters
of the source, in order, and between them lies the text of the token; the same
holds of what is between the brackets of a group and between the quotes of a
string. A stream that cannot be read to its end stops at such a place as well. -/

namespace PathScript

variable {source : List Char} {p q : Nat}

/-! ## Places -/

/-- An offset within a source that cuts no character in two. -/
def IsPlace (source : List Char) (p : Nat) : Prop :=
  ∃ before behind, source = before ++ behind ∧ p = Text.byteLength before

theorem isPlace_iff : IsPlace source p ↔ Text.isBoundary p source = true := by
  constructor
  · rintro ⟨before, behind, rfl, rfl⟩
    exact Text.isBoundary_append before behind
  · intro h
    fun_induction Text.isBoundary p source with
    | case1 cs => exact ⟨[], cs, rfl, rfl⟩
    | case2 => cases h
    | case3 n c rest ih =>
      obtain ⟨hle, hrest⟩ := (Bool.and_eq_true _ _).mp h
      obtain ⟨before, behind, rfl, hp⟩ := ih hrest
      have hle := of_decide_eq_true hle
      refine ⟨c :: before, behind, rfl, ?_⟩
      rw [Text.byteLength_cons]
      omega

/-- A stretch of a source. -/
structure Span.In (source : List Char) (s : Span) : Prop where
  le : s.start ≤ s.stop
  start : IsPlace source s.start
  stop : IsPlace source s.stop

theorem Span.In.empty (h : IsPlace source p) : Span.In source ⟨p, p⟩ := ⟨Nat.le_refl p, h, h⟩

theorem Span.In.cover {s t : Span} (hs : s.In source) (ht : t.In source) : (s.cover t).In source := by
  have hle := hs.le
  refine ⟨?_, ?_, ?_⟩
  · simp only [Span.cover]
    omega
  · simp only [Span.cover]
    rcases Nat.le_total s.start t.start with h | h
    · rw [Nat.min_eq_left h]; exact hs.start
    · rw [Nat.min_eq_right h]; exact ht.start
  · simp only [Span.cover]
    rcases Nat.le_total s.stop t.stop with h | h
    · rw [Nat.max_eq_right h]; exact ht.stop
    · rw [Nat.max_eq_left h]; exact hs.stop

/-- A stretch of a source between two offsets. -/
structure Span.Between (source : List Char) (lo hi : Nat) (s : Span) : Prop extends Span.In source s where
  lower : lo ≤ s.start
  upper : s.stop ≤ hi

namespace Span.Between

variable {lo hi lo' hi' : Nat} {s t : Span}

theorem mono (h : s.Between source lo hi) (hlo : lo' ≤ lo) (hhi : hi ≤ hi') : s.Between source lo' hi' :=
  ⟨h.toIn, Nat.le_trans hlo h.lower, Nat.le_trans h.upper hhi⟩

theorem lower_stop (h : s.Between source lo hi) : lo ≤ s.stop := Nat.le_trans h.lower h.le

theorem cover (hs : s.Between source lo hi) (ht : t.Between source lo hi) : (s.cover t).Between source lo hi :=
  ⟨hs.toIn.cover ht.toIn, Nat.le_min.mpr ⟨hs.lower, ht.lower⟩, Nat.max_le.mpr ⟨hs.upper, ht.upper⟩⟩

end Span.Between

/-- A span around another one. -/
structure Span.Holds (s t : Span) : Prop where
  start : s.start ≤ t.start
  stop : t.stop ≤ s.stop

namespace Span.Holds

variable {s t u : Span}

theorem refl (s : Span) : s.Holds s := ⟨Nat.le_refl _, Nat.le_refl _⟩

theorem trans (h : s.Holds t) (h' : t.Holds u) : s.Holds u := ⟨Nat.le_trans h.start h'.start, Nat.le_trans h'.stop h.stop⟩

theorem left (s t : Span) : (s.cover t).Holds s := ⟨Nat.min_le_left _ _, Nat.le_max_left _ _⟩

theorem right (s t : Span) : (s.cover t).Holds t := ⟨Nat.min_le_right _ _, Nat.le_max_right _ _⟩

theorem cover (hs : s.start ≤ u.start) (ht : u.stop ≤ t.stop) : (s.cover t).Holds u :=
  ⟨Nat.le_trans (Nat.min_le_left _ _) hs, Nat.le_trans ht (Nat.le_max_right _ _)⟩

end Span.Holds

theorem Span.In.slice? {s : Span} (h : s.In source) :
    Text.slice? source s.start s.stop = some (Text.slice source s.start s.stop) := by
  unfold Text.slice?
  rw [isPlace_iff.mp h.start, isPlace_iff.mp h.stop, decide_eq_true h.le]
  rfl

section Parts

variable (before text behind : List Char)

theorem Span.In.part :
    Span.In (before ++ text ++ behind) ⟨Text.byteLength before, Text.byteLength before + Text.byteLength text⟩ := by
  refine ⟨Nat.le_add_right _ _, ⟨before, text ++ behind, by rw [List.append_assoc], rfl⟩, ⟨before ++ text, behind, rfl, ?_⟩⟩
  exact (Text.byteLength_append before text).symm

theorem Text.slice?_part :
    Text.slice? (before ++ text ++ behind) (byteLength before) (byteLength before + byteLength text) = some text := by
  rw [(Span.In.part before text behind).slice?]
  simp only [Text.slice, Nat.add_sub_cancel_left]
  rw [List.append_assoc, Text.dropBytes_append, Text.takeBytes_append]

theorem Text.takeStarted_append : takeStarted (byteLength text) (text ++ behind) = text := by
  induction text with
  | nil => cases behind <;> rfl
  | cons c rest ih =>
    have hc : 0 < c.utf8Size := c.utf8Size_pos
    obtain ⟨k, hk⟩ : ∃ k, c.utf8Size + byteLength rest = k + 1 := ⟨c.utf8Size + byteLength rest - 1, by omega⟩
    rw [byteLength_cons, hk, List.cons_append, takeStarted, ← hk, Nat.add_sub_cancel_left, ih]

theorem Cursor.ofRange_part : Cursor.ofRange (before ++ text ++ behind) (Text.byteLength before)
    (Text.byteLength before + Text.byteLength text) = ⟨Text.byteLength before, text, behind.head?⟩ := by
  have hstart := isPlace_iff.mp (Span.In.part before text behind).start
  have hdrop : Text.dropBytes (Text.byteLength before + Text.byteLength text) (before ++ text ++ behind) = behind := by
    rw [← Text.byteLength_append, Text.dropBytes_append]
  dsimp only at hstart
  unfold Cursor.ofRange
  rw [hstart, if_pos rfl, hdrop, Nat.add_sub_cancel_left, List.append_assoc, Text.dropBytes_append,
    Text.takeStarted_append]

end Parts

/-! ## Faults -/

/-- A fault of the source: something in it is wrong, at a place of it. -/
structure Located.Proper (source : List Char) (e : Located) : Prop where
  fault : e.fault ≠ .outsideSource
  place : IsPlace source e.offset

namespace Cursor.Within

variable {c : Cursor}

theorem isPlace (h : c.Within source) : IsPlace source c.pos := by
  obtain ⟨before, behind, rfl, hp⟩ := h
  exact ⟨before, c.rest ++ behind, by rw [List.append_assoc], hp⟩

theorem step {pos : Nat} {after : Option Char} {ch : Char} {cs : List Char}
    (h : Within source ⟨pos, ch :: cs, after⟩) : Within source ⟨pos + ch.utf8Size, cs, after⟩ := by
  have hrest : ch :: cs = [ch] ++ cs := rfl
  exact h.advance hrest rfl

theorem skip {pos : Nat} {after : Option Char} {cs rest : List Char} (h : Within source ⟨pos, cs, after⟩)
    (hs : rest <:+ cs) : Within source ⟨pos + Scan.bytesUpTo cs rest, rest, after⟩ := by
  obtain ⟨used, rfl⟩ := hs
  refine h.advance rfl ?_
  simp [Scan.bytesUpTo]

end Cursor.Within

namespace Scan

variable {after : Option Char} {pos : Nat} {cs : List Char} {e : Located}

theorem proper_trivia (h : Cursor.Within source ⟨pos, cs, after⟩) (ht : trivia after pos cs = .error e) :
    e.Proper source := by
  fun_induction trivia after pos cs with
  | case1 => cases ht
  | case2 pos c rest _ ih => exact ih h.step ht
  | case3 => cases ht
  | case4 pos rest hc _ => cases ht; exact ⟨by simp, h.isPlace⟩
  | case5 pos rest rest' hc _ ih =>
    exact ih (h.skip ((suffix_comment hc).trans (List.suffix_cons _ _))) ht
  | case6 => cases ht

theorem isPlace_innermost {first : Opened} {nested : List Opened} (hf : IsPlace source first.pos)
    (hn : ∀ o ∈ nested, IsPlace source o.pos) : IsPlace source (nested.head?.getD first).pos := by
  cases nested with
  | nil => exact hf
  | cons o _ => exact hn o (List.mem_cons_self ..)

/-- Brackets that are open stand at places, and so does one that is closed by the wrong bracket. -/
theorem isPlace_bracketsBehind {first : Opened} {nested : List Opened} {c : Char} (hf : IsPlace source first.pos)
    (hn : ∀ o ∈ nested, IsPlace source o.pos) (hp : IsPlace source pos) :
    (∀ e, bracketsBehind first nested pos c = .error e → e.Proper source) ∧
      ∀ more, bracketsBehind first nested pos c = .ok (some more) → ∀ o ∈ more, IsPlace source o.pos := by
  unfold bracketsBehind
  cases Delim.ofOpener? c with
  | some d =>
    refine ⟨nofun, fun more heq o ho => ?_⟩
    cases heq
    rcases List.mem_cons.mp ho with rfl | ho
    · exact hp
    · exact hn o ho
  | none =>
    dsimp only
    split
    · split
      · cases nested with
        | nil => exact ⟨nofun, nofun⟩
        | cons o outer =>
          refine ⟨nofun, fun more heq o' ho => ?_⟩
          cases heq
          exact hn o' (List.mem_cons_of_mem _ ho)
      · refine ⟨fun e heq => ?_, nofun⟩
        cases heq
        exact ⟨by simp, isPlace_innermost hf hn⟩
    · refine ⟨nofun, fun more heq o ho => ?_⟩
      cases heq
      exact hn o ho

theorem proper_groupEnd {first : Opened} {nested : List Opened} (hf : IsPlace source first.pos)
    (hn : ∀ o ∈ nested, IsPlace source o.pos) (h : Cursor.Within source ⟨pos, cs, after⟩)
    (hg : groupEnd after first nested pos cs = .error e) : e.Proper source := by
  fun_induction groupEnd after first nested pos cs with
  | case1 => cases hg; exact ⟨by simp, isPlace_innermost hf hn⟩
  | case2 => cases hg; exact ⟨by simp, h.isPlace⟩
  | case3 nested pos c rest _ rest' hs ih =>
    exact ih hn (h.skip ((suffix_stringEnd? hs).trans (List.suffix_cons _ _))) hg
  | case4 => cases hg; exact ⟨by simp, h.isPlace⟩
  | case5 nested pos c rest _ rest' hc ih =>
    exact ih hn (h.skip ((suffix_commentAt hc).trans (List.suffix_cons _ _))) hg
  | case6 nested pos c rest _ _ e' hb =>
    cases hg
    exact (isPlace_bracketsBehind hf hn h.isPlace).1 _ hb
  | case7 => cases hg
  | case8 nested pos c rest _ _ more hb ih =>
    exact ih ((isPlace_bracketsBehind hf hn h.isPlace).2 more hb) h.step hg

theorem kind_of_numberEnd {fault : CompileFault} (h : numberEnd cs = .error fault) : fault.kind = .invalidLiteral := by
  unfold numberEnd at h
  dsimp only at h
  split at h
  · cases h; rfl
  · cases h

theorem kind_of_number {fault : CompileFault} (h : number cs = .error fault) : fault.kind = .invalidLiteral := by
  unfold number at h
  split at h
  · split at h
    · split at h
      · exact kind_of_numberEnd h
      · cases h; rfl
    · exact kind_of_numberEnd h
  · exact kind_of_numberEnd h

theorem proper_token (h : Cursor.Within source ⟨pos, cs, after⟩) (ht : token after pos cs = .error e) :
    e.Proper source := by
  have hp : IsPlace source pos := h.isPlace
  cases tokenAt_of_eq ht with
  | malformed _ hf =>
    refine ⟨fun heq => ?_, hp⟩
    have hkind := kind_of_number hf
    dsimp only at heq
    rw [heq] at hkind
    cases hkind
  | openString => exact ⟨by simp, hp⟩
  | openGroup hg => exact proper_groupEnd hp (fun _ ho => absurd ho List.not_mem_nil) h.step hg
  | closer => exact ⟨by simp, hp⟩
  | other => exact ⟨by simp, hp⟩

end Scan

/-! ## What stands between brackets and quotes -/

def TokenKind.isGroup : TokenKind → Bool
  | group _ => true
  | _ => false

/-- Tokens that are held together by a first and a last character. -/
def TokenKind.isEnclosed : TokenKind → Bool
  | str | group _ => true
  | _ => false

namespace Scan

variable {rest : List Char}

theorem stringEnd?_eq {quote : Char} (h : stringEnd? quote cs = some rest) : ∃ body, cs = body ++ quote :: rest := by
  fun_induction stringEnd? quote cs with
  | case1 => cases h
  | case2 => cases h
  | case3 c r ih =>
    obtain ⟨body, rfl⟩ := ih h
    exact ⟨'\\' :: c :: body, rfl⟩
  | case4 r => cases h; exact ⟨[], rfl⟩
  | case5 c r _ _ _ ih =>
    obtain ⟨body, rfl⟩ := ih h
    exact ⟨c :: body, rfl⟩

theorem utf8Size_of_isQuote {c : Char} (h : isQuote c = true) : c.utf8Size = 1 := by
  rcases (Bool.or_eq_true _ _).mp h with h | h
  · rw [of_decide_eq_true h]; rfl
  · rw [of_decide_eq_true h]; rfl

theorem not_isEnclosed_of_mem_symbols : ∀ e ∈ symbols, ¬ e.2.isEnclosed = true := by decide

theorem token_enclosed {kind : TokenKind} (hk : kind.isEnclosed = true) (h : token after pos cs = .ok (kind, rest)) :
    ∃ first body last, first.utf8Size = 1 ∧ last.utf8Size = 1 ∧ cs = first :: (body ++ last :: rest) := by
  cases tokenAt_of_eq h with
  | eof => cases hk
  | name => cases hk
  | number => cases hk
  | @string quote cs _ hq hs =>
    obtain ⟨body, rfl⟩ := stringEnd?_eq hs
    exact ⟨quote, body, quote, utf8Size_of_isQuote hq, utf8Size_of_isQuote hq, rfl⟩
  | @group d _ _ _ hg =>
    obtain ⟨body, -, rfl⟩ := balanced_of_groupEnd hg
    exact ⟨d.opener, body, d.closer, utf8Size_opener d, utf8Size_closer d, rfl⟩
  | symbol hmem => exact absurd hk (not_isEnclosed_of_mem_symbols _ hmem)

end Scan

/-! ## Tokens and streams -/

/-- A lexeme that is a stretch of a source, from an offset on, and whose text is what stands there. So is what lies
between the brackets of a group and the quotes of a string. -/
structure Lexeme.Placed (source : List Char) (lo : Nat) (l : Lexeme) : Prop where
  lower : lo ≤ l.span.start
  span : l.span.In source
  text : Text.slice? source l.span.start l.span.stop = some l.chars
  enclosed : l.kind.isEnclosed = true → l.span.inner.In source ∧
    Text.slice? source l.span.inner.start l.span.inner.stop = some (l.chars.drop 1).dropLast

/-- The tokens inside of a lexeme. Those of a group are read from the part of the source between its brackets. -/
def Lexeme.innerTokens (source : List Char) (l : Lexeme) : Tokens :=
  match l.kind with
  | .group _ => (Cursor.ofRange source l.span.inner.start l.span.inner.stop).tokens
  | _ => .eof l.span.stop

namespace Tokens

/-- A stream whose tokens, at every depth, are stretches of a source, one behind the other from an offset on. -/
def Placed (source : List Char) (lo : Nat) : Tokens → Prop
  | eof p | stuck p => lo ≤ p ∧ IsPlace source p
  | fail e => e.Proper source
  | cons ⟨l, inner⟩ rest =>
    l.Placed source lo ∧ l.kind ≠ .eof ∧ inner = l.innerTokens source ∧ Placed source l.span.start inner ∧
      Placed source l.span.stop rest

/-- A stream whose tokens end before an offset. Those inside of a token end before it does. -/
def UpTo (hi : Nat) : Tokens → Prop
  | eof p | stuck p => p ≤ hi
  | fail _ => True
  | cons ⟨l, inner⟩ rest => l.span.stop ≤ hi ∧ UpTo l.span.stop inner ∧ UpTo hi rest

theorem UpTo.mono {hi hi' : Nat} (hle : hi ≤ hi') : {ts : Tokens} → ts.UpTo hi → ts.UpTo hi'
  | eof _, h | stuck _, h => Nat.le_trans h hle
  | fail _, _ => trivial
  | cons ⟨_, _⟩ _, h => ⟨Nat.le_trans h.1 hle, h.2.1, UpTo.mono hle h.2.2⟩

/-- A stream that is nothing but tokens, at every depth: it has no fault, and nowhere is an empty name read again and
again. -/
def Whole : Tokens → Prop
  | eof _ => True
  | fail _ | stuck _ => False
  | cons ⟨_, inner⟩ rest => Whole inner ∧ Whole rest

theorem Placed.mono {lo lo' : Nat} {ts : Tokens} (h : ts.Placed source lo) (hle : lo' ≤ lo) : ts.Placed source lo' := by
  cases ts with
  | eof p => exact ⟨Nat.le_trans hle h.1, h.2⟩
  | stuck p => exact ⟨Nat.le_trans hle h.1, h.2⟩
  | fail e => exact h
  | cons t rest =>
    obtain ⟨l, inner⟩ := t
    obtain ⟨hl, hrest⟩ := h
    exact ⟨{ hl with lower := Nat.le_trans hle hl.lower }, hrest⟩

end Tokens

namespace Cursor

variable {c c' : Cursor} {l : Lexeme} {e : Located}

theorem proper_of_next (h : c.Within source) (hn : c.next = .error e) : e.Proper source := by
  unfold next at hn
  cases hs : c.skipTrivia with
  | error e' =>
    rw [hs] at hn
    cases hn
    unfold skipTrivia at hs
    cases ht : Scan.trivia c.after c.pos c.rest with
    | error e' => rw [ht] at hs; cases hs; exact Scan.proper_trivia h ht
    | ok found => rw [ht] at hs; cases hs
  | ok c₁ =>
    rw [hs] at hn
    obtain ⟨ht, -⟩ := skipTrivia_eq hs
    obtain ⟨gap, hrest, hpos⟩ := Scan.trivia_eq ht
    have hn : c₁.lexeme = .error e := hn
    unfold lexeme at hn
    cases ht' : Scan.token c₁.after c₁.pos c₁.rest with
    | error e' => rw [ht'] at hn; cases hn; exact Scan.proper_token (h.advance hrest hpos) ht'
    | ok found => rw [ht'] at hn; cases hn

/-- The first and the last character of a string or a group, and what is between them. -/
theorem enclosed_of_next (hn : c.next = .ok (l, c')) (hk : l.kind.isEnclosed = true) :
    ∃ first body last, first.utf8Size = 1 ∧ last.utf8Size = 1 ∧ l.chars = first :: (body ++ [last]) := by
  obtain ⟨c₁, -, hl⟩ := next_eq hn
  obtain ⟨first, body, last, hfirst, hlast, hrest⟩ := Scan.token_enclosed hk (token_of_lexeme hl)
  have hchars : l.chars ++ c'.rest = first :: (body ++ [last]) ++ c'.rest := by
    rw [(passes_of_lexeme hl).rest] at hrest
    simpa using hrest
  exact ⟨first, body, last, hfirst, hlast, List.append_cancel_right hchars⟩

/-- The next lexeme stands where it says, and for a group its inside is the part of the source between the brackets. -/
theorem placed_of_next (h : c.Within source) (hn : c.next = .ok (l, c')) : l.Placed source c.pos ∧
      (l.kind.isEnclosed = true → inside l = ofRange source l.span.inner.start l.span.inner.stop) := by
  obtain ⟨before, behind, rfl, hp⟩ := h
  obtain ⟨gap, hrest, hstart, hstop, -⟩ := passes_of_next hn
  have hsource : before ++ c.rest ++ behind = before ++ gap ++ l.chars ++ (c'.rest ++ behind) := by
    rw [hrest]
    simp only [List.append_assoc]
  have hspan : l.span = ⟨Text.byteLength (before ++ gap),
      Text.byteLength (before ++ gap) + Text.byteLength l.chars⟩ := by
    rw [Text.byteLength_append, ← hp, ← hstart, ← hstop]
  rw [hsource]
  refine ⟨⟨by omega, ?_, ?_, fun hk => ?_⟩, fun hk => ?_⟩
  · rw [hspan]
    exact .part ..
  · rw [hspan]
    exact Text.slice?_part ..
  all_goals
    obtain ⟨first, body, last, hfirst, hlast, hchars⟩ := enclosed_of_next hn hk
    have hinner : l.span.inner = ⟨Text.byteLength (before ++ gap ++ [first]),
        Text.byteLength (before ++ gap ++ [first]) + Text.byteLength body⟩ := by
      have hlength : Text.byteLength l.chars = Text.byteLength body + 2 := by
        simp only [hchars, Text.byteLength_append, Text.byteLength_cons, Text.byteLength_nil, hfirst, hlast]
        omega
      have hbefore : Text.byteLength (before ++ gap ++ [first]) = Text.byteLength (before ++ gap) + 1 := by
        rw [Text.byteLength_append, Text.byteLength_cons, Text.byteLength_nil, hfirst]
      rw [hspan, hbefore, hlength, Span.inner, Span.mk.injEq]
      dsimp only
      omega
    have hparts : before ++ gap ++ l.chars ++ (c'.rest ++ behind) =
        before ++ gap ++ [first] ++ body ++ (last :: (c'.rest ++ behind)) := by
      rw [hchars]
      simp only [List.append_assoc, List.cons_append, List.nil_append]
    have hbody : (l.chars.drop 1).dropLast = body := by
      rw [hchars, List.drop_succ_cons, List.drop_zero, List.dropLast_concat]
    rw [hinner, hparts]
  · exact ⟨.part .., by rw [hbody]; exact Text.slice?_part ..⟩
  · rw [ofRange_part]
    have hlast : l.chars.getLast? = some last := by rw [hchars, ← List.cons_append, List.getLast?_concat]
    have hpos : l.span.start + 1 = Text.byteLength (before ++ gap ++ [first]) := congrArg Span.start hinner
    rw [inside, hbody, hlast, hpos]
    rfl

theorem innerTokens_of_next (h : c.Within source) (hn : c.next = .ok (l, c')) : (match l.kind with
      | .group _ => (inside l).tokens
      | _ => .eof l.span.stop) = l.innerTokens source := by
  unfold Lexeme.innerTokens
  cases hk : l.kind with
  | group d =>
    dsimp only
    rw [(placed_of_next h hn).2 (by rw [hk]; rfl)]
  | _ => rfl

/-- The tokens from a cursor on are stretches of the source, and so are those inside of their groups. -/
theorem placed_tokens (c : Cursor) (h : c.Within source) : c.tokens.Placed source c.pos := by
  rw [tokens]
  split
  next e hn => exact proper_of_next h hn
  next l c' hn =>
    obtain ⟨hplaced, -⟩ := placed_of_next h hn
    split
    next => exact ⟨hplaced.lower, hplaced.span.start⟩
    next heof =>
    split
    next hlt =>
      obtain ⟨gap, hpasses⟩ := passes_of_next hn
      refine ⟨hplaced, heof, innerTokens_of_next h hn, ?_, hpasses.pos ▸ placed_tokens c' (h.next hn)⟩
      cases hk : l.kind with
      | group d =>
        have hlength := length_of_next hn
        have hinside : (inside l).rest.length < c.rest.length := by
          simp only [inside, List.length_dropLast, List.length_drop]
          omega
        exact (placed_tokens (inside l) (h.inside hn hk)).mono (Nat.le_succ _)
      | _ => exact ⟨hplaced.span.le, hplaced.span.stop⟩
    next => exact ⟨hplaced.lower, hplaced.span.start⟩
termination_by c.rest.length

theorem upTo_tokens (c : Cursor) : c.tokens.UpTo (c.pos + Text.byteLength c.rest) := by
  rw [tokens]
  split
  next => trivial
  next l c' hn =>
    obtain ⟨gap, hpasses⟩ := passes_of_next hn
    have hlength := congrArg Text.byteLength hpasses.rest
    have hstart := hpasses.start
    have hstop := hpasses.stop
    have hpos := hpasses.pos
    simp only [Text.byteLength_append] at hlength
    have hle : l.span.start ≤ c.pos + Text.byteLength c.rest := by omega
    split
    next => exact hle
    split
    next =>
      have hend : c.pos + Text.byteLength c.rest = c'.pos + Text.byteLength c'.rest := by omega
      refine ⟨by omega, ?_, hend ▸ upTo_tokens c'⟩
      cases hk : l.kind with
      | group d =>
        obtain ⟨first, body, last, hfirst, hlast, hchars⟩ := enclosed_of_next hn (by rw [hk]; rfl)
        have hbody : (inside l).rest = body := by simp [inside, hchars]
        have hinside : (inside l).rest.length < c.rest.length := by
          rw [hbody, hpasses.rest, hchars]
          simp
          omega
        refine (upTo_tokens (inside l)).mono ?_
        rw [hbody, hstop, hchars, Text.byteLength_cons, Text.byteLength_append, hfirst]
        change l.span.start + 1 + _ ≤ _
        omega
      | _ => exact Nat.le_refl _
    next => exact hle
termination_by c.rest.length

end Cursor

theorem Tokens.placed_ofText (source : List Char) : (Tokens.ofText source).Placed source 0 :=
  Cursor.placed_tokens (.ofText source) ⟨[], [], by simp [Cursor.ofText], rfl⟩

theorem Tokens.upTo_ofText (source : List Char) : (Tokens.ofText source).UpTo (Text.byteLength source) := by
  have h := Cursor.upTo_tokens (.ofText source)
  rwa [show (Cursor.ofText source).pos = 0 from rfl, Nat.zero_add] at h

theorem Text.takeBytes_prefix (n : Nat) (cs : List Char) : takeBytes n cs <+: cs := by
  induction cs generalizing n with
  | nil => exact List.prefix_refl _
  | cons c rest ih =>
    rw [takeBytes]
    split
    · exact List.prefix_cons_inj c |>.mpr (ih _)
    · exact List.nil_prefix

theorem Text.exists_of_slice? {cs text : List Char} {start stop : Nat} (h : slice? cs start stop = some text) :
    ∃ before behind, cs = before ++ text ++ behind ∧ start = byteLength before := by
  have htext := slice_of_slice? h
  unfold slice? at h
  split at h
  next hc =>
    obtain ⟨before, rest, rfl, rfl⟩ := isPlace_iff.mpr ((Bool.and_eq_true _ _).mp ((Bool.and_eq_true _ _).mp hc).1).2
    rw [slice, dropBytes_append] at htext
    obtain ⟨behind, hbehind⟩ := takeBytes_prefix (stop - byteLength before) rest
    refine ⟨before, behind, ?_, rfl⟩
    rw [htext, List.append_assoc, hbehind]
  next => cases h

namespace Literal

variable {offset : Nat} {cs : List Char} {e : Located}

/-- A bad escape behind some of the characters of a text that stands at an offset. -/
def BadEscape (offset : Nat) (cs : List Char) (e : Located) : Prop :=
  e.fault = .badEscape ∧ ∃ used behind, cs = used ++ behind ∧ e.offset = offset + Text.byteLength used

theorem BadEscape.here (offset : Nat) (cs : List Char) : BadEscape offset cs ⟨.badEscape, offset⟩ :=
  ⟨rfl, [], cs, rfl, rfl⟩

theorem BadEscape.behind {offset' : Nat} (offset : Nat) (first : List Char) (hoffset : offset' = offset + Text.byteLength first)
    (h : BadEscape offset' cs e) : BadEscape offset (first ++ cs) e := by
  obtain ⟨hfault, used, more, rfl, hused⟩ := h
  refine ⟨hfault, first ++ used, more, by rw [List.append_assoc], ?_⟩
  rw [hused, hoffset, Text.byteLength_append, Nat.add_assoc]

theorem eq_error_of_map {α β : Type} {x : Except Located α} {f : α → β} (h : x.map f = .error e) : x = .error e := by
  cases x with
  | ok a => cases h
  | error e' => cases h; rfl

theorem badEscape_of_unescape (h : unescape offset cs = .error e) : BadEscape offset cs e := by
  fun_induction unescape offset cs with
  | case1 => cases h
  | case2 => cases h; exact .here _ _
  | case3 => cases h; exact .here _ _
  | case4 offset rest c hc ih =>
    have htail := (ih (eq_error_of_map h)).behind offset ('\\' :: 'u' :: rest.take 4) ?_
    · simpa using htail
    · have hsize : 'u'.utf8Size = 1 ∧ '\\'.utf8Size = 1 := by decide
      simp only [Text.byteLength_cons, hsize]
      omega
  | case5 => cases h; exact .here _ _
  | case6 offset e' rest _ c hc ih =>
    refine (ih (eq_error_of_map h)).behind offset ['\\', e'] ?_
    have hsize : '\\'.utf8Size = 1 := by decide
    simp only [Text.byteLength_cons, Text.byteLength_nil, hsize]
    omega
  | case7 offset c rest _ ih => exact (ih (eq_error_of_map h)).behind offset [c] rfl

/-- What is wrong with a string literal is a place inside of its quotes. -/
theorem proper_text {source : List Char} {lo : Nat} {l : Lexeme} (hl : l.Placed source lo) (hk : l.kind = .str)
    (h : text l = .error e) : e.Proper source := by
  obtain ⟨hfault, used, more, hcs, hoffset⟩ := badEscape_of_unescape (eq_error_of_map h)
  obtain ⟨before, behind, hsource, hstart⟩ := Text.exists_of_slice? (hl.enclosed (by rw [hk]; rfl)).2
  refine ⟨by rw [hfault]; simp, before ++ used, more ++ behind, ?_, ?_⟩
  · rw [hsource, hcs]
    simp only [List.append_assoc]
  · have hstart : l.span.start + 1 = Text.byteLength before := hstart
    rw [hoffset, hstart, Text.byteLength_append]

theorem proper_number {source : List Char} {lo : Nat} {l : Lexeme} {negative : Bool} (hl : l.Placed source lo)
    (h : number l negative = .error e) : e.Proper source := by
  unfold number at h
  dsimp only at h
  split at h
  · cases h
  · cases h
    exact ⟨by simp, hl.span.start⟩

end Literal

end PathScript
