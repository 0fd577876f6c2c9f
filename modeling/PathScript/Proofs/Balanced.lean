import PathScript.Proofs.Reached

/-! # Groups read again

The text of a group is gone over twice: by the search for its closing bracket,
and token by token, as a part of the source that ends in front of that bracket.
Both take a balanced text apart from the left, so they agree on what is inside.
-/

namespace PathScript

namespace Scan

variable {after : Option Char} {pos : Nat} {cs rest text z : List Char}

/-! ## Reading balanced texts -/

/-- Where blanks and comments have been passed over, no comment starts. -/
theorem comment_of_trivia {pos' : Nat} (h : trivia after pos cs = .ok (pos', rest)) :
    ∀ z, rest = '/' :: z → comment after z = .none := by
  intro z hz
  fun_induction trivia after pos cs with
  | case1 => cases h; cases hz
  | case2 _ _ _ _ ih => exact ih h
  | case3 _ r hc _ => cases h; cases hz; exact hc
  | case4 => cases h
  | case5 _ _ _ _ _ ih => exact ih h
  | case6 _ c r _ hslash => cases h; cases hz; exact absurd rfl hslash

theorem Balanced.cons_cases {c : Char} (h : Balanced (c :: cs)) :
    (isPlain c = true ∧ Balanced cs) ∨ (c = '/' ∧ comment none cs = .none ∧ Balanced cs) ∨
      (c = '/' ∧ ∃ rest, (∀ after, comment after cs = .closed rest) ∧ Balanced rest) ∨
      (isQuote c = true ∧ ∃ rest, stringEnd? c cs = some rest ∧ Balanced rest) ∨
      ∃ (d : Delim) (text rest : List Char), c = d.opener ∧ cs = text ++ d.closer :: rest ∧ Balanced text ∧ Balanced rest := by
  generalize hcs : c :: cs = all at h
  cases h with
  | nil => cases hcs
  | plain hc hmore => cases hcs; exact .inl ⟨hc, hmore⟩
  | slash hc hmore => cases hcs; exact .inr (.inl ⟨rfl, hc, hmore⟩)
  | line hline hmore => cases hcs; exact .inr (.inr (.inl ⟨rfl, _, fun _ => comment_of_line hline .., hmore⟩))
  | block hb hmore => cases hcs; exact .inr (.inr (.inl ⟨rfl, _, fun _ => comment_of_block hb _, hmore⟩))
  | string hq hs hmore => cases hcs; exact .inr (.inr (.inr (.inl ⟨hq, _, hs, hmore⟩)))
  | group d hinside hmore => cases hcs; exact .inr (.inr (.inr (.inr ⟨d, _, _, rfl, rfl, hinside, hmore⟩)))

/-- The characters that are not plain. -/
def marks : List Char := ['"', '\'', '/', '(', '[', '\x7b', ')', ']', '\x7d']

theorem mem_marks_of_not_isPlain {c : Char} (h : isPlain c = false) : c ∈ marks := by
  have hbrackets : ∀ d : Delim, d.opener ∈ marks ∧ d.closer ∈ marks := by intro d; cases d <;> decide
  simp only [isPlain, Bool.and_eq_false_iff, Bool.not_eq_false', bne_eq_false_iff_eq, Option.isNone_eq_false_iff] at h
  rcases h with ((hquote | rfl) | hopen) | hcloser
  · simp only [isQuote, Bool.or_eq_true, decide_eq_true_eq] at hquote
    rcases hquote with rfl | rfl <;> decide
  · decide
  · obtain ⟨d, hd⟩ := Option.isSome_iff_exists.mp hopen
    exact eq_opener_of_ofOpener? hd ▸ (hbrackets d).1
  · obtain ⟨d, -, hd⟩ := List.any_eq_true.mp hcloser
    exact beq_iff_eq.mp hd ▸ (hbrackets d).2

/-- A class of characters none of which is a mark is one of plain characters. -/
theorem isPlain_of_class {p : Char → Bool} (hp : marks.any p = false) {c : Char} (hc : p c = true) :
    isPlain c = true := by
  cases h : isPlain c with
  | true => rfl
  | false => exact absurd hc (List.any_eq_false.mp hp c (mem_marks_of_not_isPlain h))

namespace Balanced

theorem tail {c : Char} (h : Balanced (c :: cs)) (hc : isPlain c = true) : Balanced cs := by
  obtain ⟨hquote, hslash, hopen, -⟩ := isPlain_iff.mp hc
  rcases h.cons_cases with ⟨-, h⟩ | ⟨rfl, -⟩ | ⟨rfl, -⟩ | ⟨hq, -⟩ | ⟨d, -, -, rfl, -⟩
  · exact h
  · exact absurd rfl hslash
  · exact absurd rfl hslash
  · rw [hquote] at hq; cases hq
  · cases d <;> cases hopen

theorem tail_of_slash (h : Balanced ('/' :: cs)) (hc : comment after cs = .none) : Balanced cs := by
  rcases h.cons_cases with ⟨hplain, -⟩ | ⟨-, -, h⟩ | ⟨-, rest, hclosed, -⟩ | ⟨hq, -⟩ | ⟨d, -, -, heq, -⟩
  · cases hplain
  · exact h
  · rw [hclosed] at hc; cases hc
  · cases hq
  · cases d <;> cases heq

/-- A comment in a balanced text ends, and what is behind it is balanced. -/
theorem behind_comment (h : Balanced ('/' :: cs)) (d : Delim) : comment (some d.closer) cs = .none ∨
    ∃ rest, comment (some d.closer) cs = .closed rest ∧ Balanced rest := by
  rcases h.cons_cases with ⟨hplain, -⟩ | ⟨-, hnone, -⟩ | ⟨-, rest, hclosed, h⟩ | ⟨hq, -⟩ | ⟨d, -, -, heq, -⟩
  · cases hplain
  · exact .inl (List.append_nil cs ▸ comment_none_closer hnone d rfl)
  · exact .inr ⟨rest, hclosed _, h⟩
  · cases hq
  · cases d <;> cases heq

theorem behind_string {quote : Char} (h : Balanced (quote :: cs)) (hq : isQuote quote = true) :
    ∃ rest, stringEnd? quote cs = some rest ∧ Balanced rest := by
  rcases h.cons_cases with ⟨hplain, -⟩ | ⟨rfl, -⟩ | ⟨rfl, -⟩ | ⟨-, h⟩ | ⟨d, -, -, rfl, -⟩
  · rw [(isPlain_iff.mp hplain).1] at hq; cases hq
  · cases hq
  · cases hq
  · exact h
  · cases d <;> cases hq

theorem opener_inj {d d' : Delim} (h : d.opener = d'.opener) : d = d' := by
  have hd := ofOpener?_opener d
  rw [h, ofOpener?_opener d'] at hd
  exact (Option.some.inj hd).symm

theorem behind_group {d : Delim} (h : Balanced (d.opener :: cs)) :
    ∃ text rest, cs = text ++ d.closer :: rest ∧ Balanced text ∧ Balanced rest := by
  rcases h.cons_cases with ⟨hplain, -⟩ | ⟨heq, -⟩ | ⟨heq, -⟩ | ⟨hq, -⟩ | ⟨d', text, rest, heq, h⟩
  · cases d <;> cases hplain
  · cases d <;> cases heq
  · cases d <;> cases heq
  · cases d <;> cases hq
  · obtain rfl := opener_inj heq
    exact ⟨text, rest, h⟩

theorem not_isCloser {c : Char} (h : Balanced (c :: cs)) : Delim.isCloser c = false := by
  rcases h.cons_cases with ⟨hplain, -⟩ | ⟨rfl, -⟩ | ⟨rfl, -⟩ | ⟨hq, -⟩ | ⟨d, -, -, rfl, -⟩
  · exact (isPlain_iff.mp hplain).2.2.2
  · rfl
  · rfl
  · simp only [isQuote, Bool.or_eq_true, decide_eq_true_eq] at hq
    rcases hq with rfl | rfl <;> rfl
  · cases d <;> rfl

/-! Scanners that take plain characters only. -/

theorem dropWhile {p : Char → Bool} (h : Balanced cs) (hp : marks.any p = false) : Balanced (cs.dropWhile p) := by
  induction cs with
  | nil => exact h
  | cons c cs ih =>
    cases hc : p c with
    | true => rw [List.dropWhile_cons_of_pos hc]; exact ih (h.tail (isPlain_of_class hp hc))
    | false => rw [List.dropWhile_cons_of_neg (by simp [hc])]; exact h

theorem skipOne {p : Char → Bool} (h : Balanced cs) (hp : marks.any p = false) : Balanced (skipOne p cs) := by
  cases cs with
  | nil => exact h
  | cons c cs =>
    rw [skipOne_cons]
    split
    next hc => exact h.tail (isPlain_of_class hp hc)
    next => exact h

theorem fraction (h : Balanced cs) : Balanced (fraction cs) := by
  unfold Scan.fraction
  split
  next =>
    split
    next => exact (h.tail (by decide)).dropWhile (by decide)
    next => exact h
  next => exact h

theorem exponent (h : Balanced cs) : Balanced (exponent cs) := by
  unfold Scan.exponent
  dsimp only
  split
  next => exact ((h.skipOne (by decide)).skipOne (by decide)).dropWhile (by decide)
  next => exact h

theorem numberEnd (h : Balanced cs) (hn : numberEnd cs = .ok rest) : Balanced rest := by
  unfold Scan.numberEnd at hn
  dsimp only at hn
  split at hn
  next => cases hn
  next => cases hn; exact h.skipOne (by decide)

theorem number (h : Balanced cs) (hn : number cs = .ok rest) : Balanced rest := by
  have hdecimal : Balanced (decimal cs) := (h.dropWhile (by decide)).fraction.exponent
  unfold Scan.number at hn
  split at hn
  next x r =>
    split at hn
    next hx =>
      split at hn
      next => exact (((h.tail (by decide)).tail (isPlain_of_class (by decide) hx)).dropWhile (by decide)).numberEnd hn
      next => cases hn
    next => exact hdecimal.numberEnd hn
  next => exact hdecimal.numberEnd hn

end Balanced

/-- A symbol is made of plain characters, but that it may start with a slash. -/
theorem symbols_plain : symbols.all (fun e => e.1.toList.tail.all isPlain &&
    e.1.toList.head?.all fun c => isPlain c || c == '/') = true := by
  decide

theorem Balanced.drop_plain {used : List Char} (h : Balanced (used ++ rest)) (hused : used.all isPlain = true) :
    Balanced rest := by
  induction used with
  | nil => exact h
  | cons c used ih =>
    obtain ⟨hc, hused⟩ := (Bool.and_eq_true _ _).mp hused
    exact ih (Balanced.tail h hc) hused

theorem Balanced.symbol {text : String} {kind : TokenKind} (h : Balanced (text.toList ++ rest))
    (hmem : (text, kind) ∈ symbols) (hslash : ∀ z, text.toList ++ rest = '/' :: z → comment after z = .none) :
    Balanced rest := by
  obtain ⟨htail, hhead⟩ := (Bool.and_eq_true _ _).mp (List.all_eq_true.mp symbols_plain _ hmem)
  obtain ⟨c, more, htext⟩ := List.exists_cons_of_ne_nil (symbols_ne_nil _ hmem).1
  dsimp only at htail hhead htext
  rw [htext] at h hslash htail hhead
  have hmore : Balanced (more ++ rest) := by
    rcases (Bool.or_eq_true _ _).mp hhead with hplain | hc
    · exact h.tail hplain
    · obtain rfl := beq_iff_eq.mp hc
      exact h.tail_of_slash (hslash _ rfl)
  exact hmore.drop_plain htail

/-- In front of a closing bracket blanks and comments of a balanced text are passed over, and what is behind them is
balanced. -/
theorem trivia_of_balanced (h : Balanced cs) (d : Delim) (pos : Nat) :
    ∃ pos' rest, trivia (some d.closer) pos cs = .ok (pos', rest) ∧ Balanced rest := by
  fun_induction trivia (some d.closer) pos cs with
  | case1 pos => exact ⟨pos, [], rfl, .nil⟩
  | case2 pos c r hblank ih => exact ih (h.tail (isPlain_of_class (by decide) hblank))
  | case3 pos r => exact ⟨pos, _, rfl, h⟩
  | case4 pos r hc =>
    rcases h.behind_comment d with hnone | ⟨rest, hclosed, -⟩
    · rw [hnone] at hc; cases hc
    · rw [hclosed] at hc; cases hc
  | case5 pos r rest hc _ ih =>
    rcases h.behind_comment d with hnone | ⟨rest', hclosed, h'⟩
    · rw [hnone] at hc; cases hc
    · rw [hclosed] at hc; cases hc
      exact ih h'
  | case6 pos c r => exact ⟨pos, _, rfl, h⟩

/-- A token of a balanced text, where no comment starts, leaves a balanced text. -/
theorem balanced_of_token (h : Balanced cs) (hslash : ∀ z, cs = '/' :: z → comment after z = .none)
    {kind : TokenKind} (ht : token after pos cs = .ok (kind, rest)) : Balanced rest := by
  cases tokenAt_of_eq ht with
  | eof => exact h
  | name => exact h.dropWhile (by decide)
  | number _ hn => exact h.number hn
  | string hq hs =>
    obtain ⟨rest', hs', hrest⟩ := h.behind_string hq
    rw [hs] at hs'
    cases hs'
    exact hrest
  | group hg =>
    obtain ⟨text, rest', rfl, htext, hrest⟩ := h.behind_group
    rw [groupEnd_eq_of_balanced htext] at hg
    cases hg
    exact hrest
  | symbol hmem => exact h.symbol hmem hslash

/-- Where a balanced text has no token, brackets, quotes and comments are not to blame. -/
theorem kind_of_balanced (h : Balanced cs) {e : Located} (ht : token after pos cs = .error e) :
    e.fault.kind ≠ .unbalanced := by
  cases tokenAt_of_eq ht with
  | malformed _ hn => rw [kind_of_number hn]; decide
  | openString hq hs =>
    obtain ⟨rest', hs', -⟩ := h.behind_string hq
    rw [hs] at hs'
    cases hs'
  | openGroup hg =>
    obtain ⟨text, rest', rfl, htext, -⟩ := h.behind_group
    rw [groupEnd_eq_of_balanced htext] at hg
    cases hg
  | closer hc => rw [h.not_isCloser] at hc; cases hc
  | other => exact nofun

end Scan

/-! ## Reading inside of groups -/

namespace Cursor

variable {source : List Char} {stop : Nat} {d : Delim} {c c' : Cursor} {l : Lexeme}

/-- A cursor in a part that a closing bracket follows, with balanced text up to there. -/
structure InGroup (source : List Char) (stop : Nat) (d : Delim) (c : Cursor) : Prop where
  inPart : c.InPart source stop (some d.closer)
  balanced : Scan.Balanced c.rest

theorem kept_inGroup (source : List Char) (stop : Nat) (d : Delim) : Kept stop (InGroup source stop d) where
  stop h := h.inPart.stop
  skip {c c'} h hs := by
    refine ⟨(kept_inPart ..).skip h.inPart hs, ?_⟩
    obtain ⟨ht, -⟩ := skipTrivia_eq hs
    obtain ⟨pos, rest, ht', hrest⟩ := Scan.trivia_of_balanced h.balanced d c.pos
    rw [h.inPart.after, ht'] at ht
    cases ht
    exact hrest
  lexeme {c c' l} h hs hl := by
    refine ⟨(kept_inPart ..).lexeme h.inPart hs hl, ?_⟩
    exact Scan.balanced_of_token h.balanced (Scan.comment_of_trivia (skipTrivia_eq hs).1) (token_of_lexeme hl)

theorem InGroup.skipTrivia (h : c.InGroup source stop d) : ∃ c', c.skipTrivia = .ok c' := by
  obtain ⟨pos, rest, ht, -⟩ := Scan.trivia_of_balanced h.balanced d c.pos
  exact ⟨⟨pos, rest, c.after⟩, by rw [Cursor.skipTrivia, h.inPart.after, ht]; rfl⟩

theorem InGroup.kind_of_next {e : Located} (h : c.InGroup source stop d) (hn : c.next = .error e) :
    e.fault.kind ≠ .unbalanced := by
  obtain ⟨c₁, hs⟩ := h.skipTrivia
  have h₁ := (kept_inGroup source stop d).skip h hs
  rw [next, hs] at hn
  change c₁.lexeme = .error e at hn
  unfold lexeme at hn
  cases ht : Scan.token c₁.after c₁.pos c₁.rest with
  | ok found => rw [ht] at hn; cases hn
  | error e' =>
    rw [ht] at hn
    cases hn
    exact Scan.kind_of_balanced h₁.balanced ht

end Cursor

namespace Reader

variable {source : List Char} {s : Span} {r : Reader} {l : Lexeme} {d : Delim}

/-- The stretches of a source that are read: all of it, and what is inside of a group read from one of them. -/
inductive Ranged (source : List Char) : Span → Prop where
  | whole : Ranged source ⟨0, Text.byteLength source⟩
  | inner {s : Span} {r : Reader} {l : Lexeme} {d : Delim} (range : Ranged source s)
      (reached : (ofRange source s.start s.stop).Reached r) (read : r.next.1 = .ok l) (isGroup : l.kind = .group d) :
      Ranged source l.span.inner

/-- Where a group that is read stands in the source, and what is inside. -/
theorem group_parts (hs : s.In source) (hr : (ofRange source s.start s.stop).Reached r) (hl : r.next.1 = .ok l)
    (hk : l.kind = .group d) : ∃ before text behind, Scan.Balanced text ∧
      source = before ++ [d.opener] ++ text ++ d.closer :: behind ∧
      l.span = ⟨Text.byteLength before, Text.byteLength before + Text.byteLength text + 2⟩ := by
  obtain ⟨after, hstands⟩ := stands_ofRange hs
  have hkept := Cursor.kept_inPart source s.stop after
  have hr := hstands.reached hkept hr
  obtain ⟨c, hn⟩ := hr.next_eq hkept hl
  obtain ⟨before, behind, hsource, hpos⟩ := hr.cursor.within
  obtain ⟨gap, hrest, hstart, hstop, -⟩ := Cursor.passes_of_next hn
  obtain ⟨_, -, hlexeme⟩ := Cursor.next_eq hn
  obtain ⟨text, htext, hchars⟩ := Cursor.chars_of_group hlexeme hk
  refine ⟨before ++ gap, text, c.rest ++ behind, htext, ?_, ?_⟩
  · rw [hsource, hrest, hchars]
    simp
  · have hlength : Text.byteLength l.chars = Text.byteLength text + 2 := by
      simp only [hchars, Text.byteLength_append, Text.byteLength_cons, Text.byteLength_nil, Scan.utf8Size_opener,
        Scan.utf8Size_closer]
      omega
    change (⟨l.span.start, l.span.stop⟩ : Span) = _
    rw [hstop, hstart, hpos, hlength, Text.byteLength_append, Nat.add_assoc _ _ 2]

theorem inner_eq (before text : List Char) (h : l.span =
    ⟨Text.byteLength before, Text.byteLength before + Text.byteLength text + 2⟩) : l.span.inner =
      ⟨Text.byteLength (before ++ [d.opener]), Text.byteLength (before ++ [d.opener]) + Text.byteLength text⟩ := by
  have hbefore : Text.byteLength (before ++ [d.opener]) = Text.byteLength before + 1 := by
    rw [Text.byteLength_append, Text.byteLength_cons, Text.byteLength_nil, Scan.utf8Size_opener]
  rw [h, hbefore, Span.inner, Span.mk.injEq]
  dsimp only
  omega

theorem stands_inner (hs : s.In source) (hr : (ofRange source s.start s.stop).Reached r) (hl : r.next.1 = .ok l)
    (hk : l.kind = .group d) : (ofRange source l.span.inner.start l.span.inner.stop).Stands source l.span.inner.stop
      (Cursor.InGroup source l.span.inner.stop d) := by
  obtain ⟨before, text, behind, htext, hsource, hspan⟩ := group_parts hs hr hl hk
  rw [inner_eq before text hspan, hsource, ofRange_parts]
  exact ⟨rfl, rfl, ⟨⟨⟨before ++ [d.opener], d.closer :: behind, rfl, rfl⟩, rfl, rfl⟩, htext⟩, nofun⟩

theorem Ranged.span_in (h : Ranged source s) : s.In source := by
  induction h with
  | whole => exact ⟨Nat.zero_le _, ⟨[], source, rfl, rfl⟩, ⟨source, [], (List.append_nil _).symm, rfl⟩⟩
  | inner _ hr hl hk ih =>
    obtain ⟨before, text, behind, -, hsource, hspan⟩ := group_parts ih hr hl hk
    rw [inner_eq before text hspan, hsource]
    exact .part ..

/-- The bracket that closes a group, looked for from its opening bracket on. -/
theorem closing_of_parts {before text behind : List Char} (h : Scan.Balanced text)
    (hsource : source = before ++ [d.opener] ++ text ++ d.closer :: behind) :
    (ofText source).closing (Text.byteLength before) = .ok (Text.byteLength before + Text.byteLength text + 1) := by
  have hchar : (ofText source).charAt? (Text.byteLength before) = some d.opener := by
    have hplace : Text.isBoundary (Text.byteLength before) source = true :=
      isPlace_iff.mp ⟨before, d.opener :: (text ++ d.closer :: behind), by rw [hsource]; simp, rfl⟩
    have hdrop : Text.dropBytes (Text.byteLength before) source = d.opener :: (text ++ d.closer :: behind) := by
      rw [hsource, List.append_assoc, List.append_assoc, Text.dropBytes_append]
      rfl
    change (if _ then (Text.dropBytes _ source).head? else none) = _
    rw [hdrop]
    exact if_pos hplace
  have hcursor : Cursor.ofRange source (Text.byteLength before + 1) (ofText source).stop =
      ⟨Text.byteLength before + 1, text ++ d.closer :: behind, none⟩ := by
    have hpart := Cursor.ofRange_part (before ++ [d.opener]) (text ++ d.closer :: behind) []
    rw [List.append_nil, ← Text.byteLength_append, ← List.append_assoc, ← hsource, Text.byteLength_append,
      Text.byteLength_cons, Scan.utf8Size_opener] at hpart
    simpa [ofText, ofRange] using hpart
  unfold closing
  rw [hchar, Option.bind_some, Scan.ofOpener?_opener]
  change Except.map _ (Scan.groupEnd (Cursor.ofRange source _ _).after _ _ _ _) = _
  rw [show (ofText source).source = source from rfl, hcursor]
  dsimp only
  rw [Scan.groupEnd_eq_of_balanced h]
  simp only [Except.map, Except.ok.injEq]
  omega

/-- Whatever is asked of a reader inside of a group, brackets, quotes and comments are not to blame for a fault. -/
theorem kind_of_fault {stop : Nat} {e : Located} (h : r.Stands source stop (Cursor.InGroup source stop d))
    (he : r.next.1 = .error e ∨ r.peek.1 = .error e ∨ r.atEnd.1 = .error e) : e.fault.kind ≠ .unbalanced := by
  have hstop := h.atStop (Cursor.kept_inGroup source stop d)
  have hnext : ∀ e, r.next.1 = .error e → e.fault.kind ≠ .unbalanced := fun e he => by
    cases hn : r.cursor.next with
    | ok found => rw [next_of_cursor hstop hn] at he; cases he
    | error e' =>
      rw [next_of_fault hstop hn] at he
      cases he
      exact h.cursor.kind_of_next hn
  rcases he with he | he | he
  · exact hnext e he
  · refine hnext e ?_
    unfold peek at he
    split at he
    next => cases he
    next heq => rw [heq]; exact he
  · -- At the end or not, blanks and comments are passed over.
    obtain ⟨c, hc⟩ := h.cursor.skipTrivia
    rw [atEnd, skip_of_cursor hstop hc] at he
    cases he

/-- Groups can be read again. For a group that is read from a source, or from what is inside of a group read before,
at any depth, the bracket that closes it is found from the source as a whole; and a reader of what is inside of it,
whatever is asked of it and however often, never meets a bracket, a quote or a comment that does not match. -/
theorem groups_read_again (hs : Ranged source s) (hr : (ofRange source s.start s.stop).Reached r)
    (hl : r.next.1 = .ok l) (hk : l.kind = .group d) : (ofText source).closing l.span.start = .ok (l.span.stop - 1) ∧
      ∀ r', (ofRange source l.span.inner.start l.span.inner.stop).Reached r' → ∀ e,
        (r'.next.1 = .error e ∨ r'.peek.1 = .error e ∨ r'.atEnd.1 = .error e) → e.fault.kind ≠ .unbalanced := by
  have hin := hs.span_in
  constructor
  · obtain ⟨before, text, behind, htext, hsource, hspan⟩ := group_parts hin hr hl hk
    rw [hspan]
    exact closing_of_parts htext hsource
  · intro r' hr' e he
    have hinner := stands_inner hin hr hl hk
    exact kind_of_fault (hinner.reached (Cursor.kept_inGroup ..) hr') he

/-- A balanced text between brackets is read as a group. -/
theorem next_of_balanced {text : List Char} (h : Scan.Balanced text) (d : Delim) (before z behind : List Char) :
    (ofRange (before ++ d.opener :: (text ++ d.closer :: z) ++ behind) (Text.byteLength before)
      (Text.byteLength before + Text.byteLength (d.opener :: (text ++ d.closer :: z)))).next.1 =
    .ok ⟨.group d, ⟨Text.byteLength before, Text.byteLength before + Text.byteLength (d.opener :: (text ++ [d.closer]))⟩,
      d.opener :: (text ++ [d.closer])⟩ := by
  have hstart : Text.isTokenBlank d.opener = false ∧ d.opener ≠ '/' := by cases d <;> decide
  have hsplit : d.opener :: (text ++ d.closer :: z) = d.opener :: (text ++ [d.closer]) ++ z := by simp
  have hlexeme := Cursor.lexeme_of_token (c := ⟨Text.byteLength before, d.opener :: (text ++ d.closer :: z), behind.head?⟩)
    (Scan.token_of_balanced h d z) hsplit
  rw [ofRange_parts, next_of_cursor rfl ((Cursor.next_eq_lexeme rfl hstart.1 hstart.2).trans hlexeme)]

/-- Of the two groups in `([')' /* ] */])` the inner one holds a bracket in a string and one in a comment. -/
theorem groups_read_again_inner :
    (ofRange "([')' /* ] */])".toList 1 14).next.1 = .ok ⟨.group .bracket, ⟨1, 14⟩, "[')' /* ] */]".toList⟩ ∧
      (ofText "([')' /* ] */])".toList).closing 1 = .ok 13 ∧
      ∀ r', (ofRange "([')' /* ] */])".toList 2 13).Reached r' → ∀ e,
        (r'.next.1 = .error e ∨ r'.peek.1 = .error e ∨ r'.atEnd.1 = .error e) → e.fault.kind ≠ .unbalanced := by
  have hcomment : Scan.blockEnd? " ] */".toList = some [] := rfl
  have hstring : Scan.stringEnd? '\'' ")' /* ] */".toList = some " /* ] */".toList := rfl
  have hinner : Scan.Balanced "')' /* ] */".toList := .string rfl hstring (.plain rfl (.block hcomment .nil))
  have houter : Scan.Balanced "[')' /* ] */]".toList := .group .bracket hinner .nil
  have hread : (ofText "([')' /* ] */])".toList).next.1 = .ok ⟨.group .paren, ⟨0, 15⟩, "([')' /* ] */])".toList⟩ :=
    next_of_balanced houter .paren [] [] []
  have hread' : (ofRange "([')' /* ] */])".toList 1 14).next.1 =
      .ok ⟨.group .bracket, ⟨1, 14⟩, "[')' /* ] */]".toList⟩ :=
    next_of_balanced hinner .bracket ['('] [] [')']
  exact ⟨hread', groups_read_again (.inner .whole .start hread rfl) .start hread' rfl⟩

end Reader

end PathScript
