import PathScript.Proofs.Placed
import PathScript.Token.Reader

/-! # Lexemes cover their text

Each lexeme but one kind takes at least one character, so reading on and on
comes to an end. The empty name takes nothing: a character beyond ASCII that is
neither a letter nor a number starts a name and belongs to none, and reading
stays in front of it for good. -/

namespace PathScript

/-! ## Blanks and comments -/

/-- Blanks and complete comments, in front of some text. A comment in `//` is complete at the end of its line or of
the text, one in `/*` at the first `*/`. -/
inductive Trivia (behind : List Char) : List Char → Prop where
  | nil : Trivia behind []
  | blank {c : Char} {gap : List Char} (h : Text.isTokenBlank c = true) (more : Trivia behind gap) :
      Trivia behind (c :: gap)
  | line {text gap : List Char} (inLine : '\n' ∉ text) (ends : ∀ c ∈ (gap ++ behind).head?, c = '\n')
      (more : Trivia behind gap) : Trivia behind ('/' :: '/' :: (text ++ gap))
  | block {text gap : List Char} (isFirst : ¬ ['*', '/'] <:+: text ++ ['*']) (more : Trivia behind gap) :
      Trivia behind ('/' :: '*' :: (text ++ '*' :: '/' :: gap))

namespace Scan

variable {cs rest : List Char}

/-- A block comment ends at the first place that can end it. -/
theorem blockEnd?_eq (h : blockEnd? cs = some rest) :
    ∃ text, cs = text ++ '*' :: '/' :: rest ∧ ¬ ['*', '/'] <:+: text ++ ['*'] := by
  fun_induction blockEnd? cs with
  | case1 => cases h
  | case2 r =>
    cases h
    exact ⟨[], rfl, by decide⟩
  | case3 c r hstart ih =>
    obtain ⟨text, rfl, hfirst⟩ := ih h
    refine ⟨c :: text, rfl, fun hin => ?_⟩
    rcases List.infix_cons_iff.mp hin with ⟨behind, hpre⟩ | hin
    · -- The mark would stand right here, where the scan has not found it.
      have hhead : text ++ ['*'] = '/' :: behind := (List.cons.inj hpre).2.symm
      cases text with
      | nil => cases hhead
      | cons d text =>
        cases hhead
        exact hstart _ (List.cons.inj hpre).1.symm rfl
    · exact hfirst hin

theorem trivia_isTrivia {pos pos' : Nat} (h : trivia none pos cs = .ok (pos', rest)) :
    ∃ gap, cs = gap ++ rest ∧ pos' = pos + Text.byteLength gap ∧ Trivia rest gap := by
  have htrivia : ∃ gap, cs = gap ++ rest ∧ Trivia rest gap := by
    generalize hafter : (none : Option Char) = after at h
    fun_induction trivia after pos cs with
    | case1 => cases h; exact ⟨[], rfl, .nil⟩
    | case2 pos c r hblank ih =>
      obtain ⟨gap, rfl, htr⟩ := ih h
      exact ⟨c :: gap, rfl, .blank hblank htr⟩
    | case3 => cases h; exact ⟨[], rfl, .nil⟩
    | case4 => cases h
    | case5 pos r rest' hc _ ih =>
      obtain ⟨gap, rfl, htr⟩ := ih h
      subst hafter
      unfold comment at hc
      split at hc
      case h_1 hslash =>
        rw [Option.or_none] at hslash
        obtain ⟨r, rfl⟩ := List.head?_eq_some_iff.mp hslash
        have hdrop : ('/' :: r).dropWhile (· != '\n') = r.dropWhile (· != '\n') := List.dropWhile_cons_of_pos (by decide)
        rw [hdrop] at hc
        have hrest : r.dropWhile (· != '\n') = gap ++ rest := Comment.closed.inj hc
        refine ⟨'/' :: '/' :: (r.takeWhile (· != '\n') ++ gap), ?_, .line ?_ ?_ htr⟩
        · rw [List.cons_append, List.cons_append, List.append_assoc, ← hrest, List.takeWhile_append_dropWhile]
        · intro hmem
          have := List.all_eq_true.mp List.all_takeWhile _ hmem
          simp at this
        · intro c hmem
          rw [← hrest] at hmem
          have := List.head?_dropWhile_not (· != '\n') r
          rw [Option.mem_def.mp hmem] at this
          simpa using this
      case h_2 hstar =>
        rw [Option.or_none] at hstar
        obtain ⟨r, rfl⟩ := List.head?_eq_some_iff.mp hstar
        rw [List.tail_cons] at hc
        split at hc
        case h_1 hend =>
          cases hc
          obtain ⟨text, rfl, hfirst⟩ := blockEnd?_eq hend
          exact ⟨'/' :: '*' :: (text ++ '*' :: '/' :: gap), by simp, .block hfirst htr⟩
        case h_2 => cases hc
      case h_3 => cases hc
    | case6 => cases h; exact ⟨[], rfl, .nil⟩
  obtain ⟨gap, hgap, htr⟩ := htrivia
  obtain ⟨gap', hgap', hpos⟩ := trivia_eq h
  have hsame : gap = gap' := List.append_cancel_right (hgap.symm.trans hgap')
  exact ⟨gap, hgap, by rw [hsame, hpos], htr⟩

/-! ## Lexemes take something -/

/-- A character that starts a name and belongs to none: beyond ASCII, and neither a letter nor a number. -/
def isStray (c : Char) : Bool := decide (0x80 ≤ c.toNat) && !Text.isAlphanumeric c

theorem isStray_of_isNameStart {c : Char} (hs : isNameStart c = true) (hc : isNameChar c = false) : isStray c = true := by
  simp only [isNameChar, Bool.or_eq_false_iff] at hc
  simp only [isNameStart, hc.1.1, hc.1.2, Bool.false_or, Bool.or_eq_true, decide_eq_true_eq] at hs
  have hbeyond : 0x80 ≤ c.toNat := by
    rcases hs with halpha | hge
    · -- A letter of ASCII would belong to a name.
      refine Nat.le_of_not_lt fun hlt => ?_
      have hletter := hc.2
      simp only [Text.isAlphanumeric, Text.isAlphabetic, if_pos hlt, halpha, Bool.true_or] at hletter
      cases hletter
    · exact hge
  simp [isStray, hbeyond, hc.2]

theorem length_of_number {c : Char} (hs : startsNumber c cs = true) (h : number (c :: cs) = .ok rest) :
    rest.length < (c :: cs).length := by
  simp only [startsNumber, Bool.or_eq_true, Bool.and_eq_true, decide_eq_true_eq] at hs
  rcases hs with hdigit | ⟨rfl, hpoint⟩
  · have hdec : ∀ rest, numberEnd (decimal (c :: cs)) = .ok rest → rest.length < (c :: cs).length := fun rest h => by
      have hle := (((suffix_numberEnd h).trans (suffix_exponent _)).trans (suffix_fraction _)).length_le
      rw [List.dropWhile_cons_of_pos hdigit] at hle
      have := length_dropWhile_le Char.isDigit cs
      simp only [List.length_cons]
      omega
    unfold number at h
    split at h
    case h_1 x r heq =>
      cases heq
      split at h
      case isTrue =>
        split at h
        case isTrue =>
          have hle := (suffix_numberEnd h).length_le
          have := length_dropWhile_le isHexDigit r
          simp only [List.length_cons]
          omega
        case isFalse => cases h
      case isFalse => exact hdec rest h
    case h_2 => exact hdec rest h
  · have := length_of_number_dot hpoint h
    simp only [List.length_cons]
    omega

theorem symbols_ne_nil : ∀ e ∈ symbols, e.1.toList ≠ [] ∧ e.2 ≠ .eof := by decide

/-- A token is the end, takes something, or is an empty name at a character that belongs to no name. -/
theorem token_cases {after : Option Char} {pos : Nat} {kind : TokenKind} (h : token after pos cs = .ok (kind, rest)) :
    (kind = .eof ∧ cs = [] ∧ rest = []) ∨ (kind ≠ .eof ∧ rest.length < cs.length) ∨
      (kind = .ident ∧ rest = cs ∧ ∃ c more, cs = c :: more ∧ isStray c = true) := by
  cases tokenAt_of_eq h with
  | eof => exact .inl ⟨rfl, rfl, rfl⟩
  | @name c r hstart =>
    refine .inr ?_
    cases hc : isNameChar c with
    | true =>
      refine .inl ⟨by decide, ?_⟩
      rw [List.dropWhile_cons_of_pos hc]
      exact Nat.lt_succ_of_le (length_dropWhile_le _ _)
    | false =>
      refine .inr ⟨rfl, ?_, c, r, rfl, isStray_of_isNameStart hstart hc⟩
      rw [List.dropWhile_cons_of_neg (by simp [hc])]
  | number hstart hn => exact .inr (.inl ⟨by decide, length_of_number hstart hn⟩)
  | string _ hs => exact .inr (.inl ⟨by decide, Nat.lt_succ_of_lt (length_of_stringEnd? hs)⟩)
  | group hg =>
    obtain ⟨text, -, rfl⟩ := balanced_of_groupEnd hg
    refine .inr (.inl ⟨by simp, ?_⟩)
    simp only [List.length_cons, List.length_append]
    omega
  | @symbol text _ _ hmem =>
    have hlen : 0 < text.toList.length := List.length_pos_iff.mpr (symbols_ne_nil _ hmem).1
    exact .inr (.inl ⟨(symbols_ne_nil _ hmem).2, by rw [List.length_append]; omega⟩)

end Scan

/-! ## One step -/

namespace Cursor

variable {c c' : Cursor} {l : Lexeme}

theorem next_cases (hafter : c.after = none) (h : c.next = .ok (l, c')) :
    ∃ gap, Passes c l c' gap ∧ Trivia (l.chars ++ c'.rest) gap ∧
      ((l.kind = .eof ∧ l.chars = [] ∧ c'.rest = []) ∨ (l.kind ≠ .eof ∧ l.chars ≠ []) ∨
        (l.kind = .ident ∧ l.chars = [] ∧ ∃ ch more, c'.rest = ch :: more ∧ Scan.isStray ch = true)) := by
  obtain ⟨c₁, hskip, hl⟩ := next_eq h
  obtain ⟨htrivia, hafter₁⟩ := skipTrivia_eq hskip
  rw [hafter] at htrivia
  obtain ⟨gap, hrest, hpos, htr⟩ := Scan.trivia_isTrivia htrivia
  obtain ⟨hcut, hstart, hstop, hpos', hafter'⟩ := passes_of_lexeme hl
  rw [List.nil_append] at hcut
  rw [hcut] at htr
  refine ⟨gap, ⟨?_, ?_, hstop, hpos', hafter'.trans hafter₁⟩, htr, ?_⟩
  · rw [hrest, hcut, List.append_assoc]
  · rw [hstart, hpos]
    rfl
  · have hlength := congrArg List.length hcut
    rw [List.length_append] at hlength
    rcases Scan.token_cases (token_of_lexeme hl) with ⟨hk, hnil, hrest'⟩ | ⟨hk, hlt⟩ | ⟨hk, hsame, ch, more, heq, hstray⟩
    · rw [hnil] at hcut
      exact .inl ⟨hk, (List.append_eq_nil_iff.mp hcut.symm).1, hrest'⟩
    · refine .inr (.inl ⟨hk, fun hnil => ?_⟩)
      rw [hnil, List.length_nil] at hlength
      omega
    · refine .inr (.inr ⟨hk, List.eq_nil_of_length_eq_zero ?_, ch, more, hsame.trans heq, hstray⟩)
      rw [hsame] at hlength
      omega

end Cursor

namespace Reader

variable {r : Reader} {l : Lexeme}

/-- A reader whose part reaches to the end of the source. -/
structure ToEnd (r : Reader) : Prop where
  after : r.cursor.after = none
  stop : r.stop = r.cursor.stop

/-- The reader behind a lexeme. -/
def past (r : Reader) (l : Lexeme) (c : Cursor) : Reader := { r with cursor := c, last := some (l, r.cursor) }

theorem ToEnd.past {c : Cursor} {gap : List Char} (h : r.ToEnd) (hp : r.cursor.Passes l c gap) : (r.past l c).ToEnd where
  after := hp.after.trans h.after
  stop := by
    change r.stop = c.stop
    rw [h.stop, Cursor.stop, Cursor.stop, hp.rest, hp.pos, hp.stop, hp.start]
    simp only [Text.byteLength_append]
    omega

theorem skip_of_cursor {c : Cursor} (h : r.stop = r.cursor.stop) (hs : r.cursor.skipTrivia = .ok c) :
    r.skip = (.ok (), { r with cursor := c }) := by
  obtain ⟨gap, hrest, hpos⟩ := Scan.trivia_eq (Cursor.skipTrivia_eq hs).1
  have hle : c.pos ≤ r.stop := by
    rw [h, Cursor.stop, hrest, Text.byteLength_append]
    omega
  have hplace : max r.cursor.pos (min c.pos r.stop) = c.pos := by omega
  simp only [skip, hs, hplace]

theorem next_of_cursor {c : Cursor} (h : r.stop = r.cursor.stop) (hn : r.cursor.next = .ok (l, c)) :
    r.next = (.ok l, r.past l c) := by
  obtain ⟨c₁, hskip, hl⟩ := Cursor.next_eq hn
  simp only [next, skip_of_cursor h hskip, hl, past]

theorem next_of_fault {e : Located} (h : r.stop = r.cursor.stop) (hn : r.cursor.next = .error e) : r.next.1 = .error e := by
  unfold Cursor.next at hn
  cases hskip : r.cursor.skipTrivia with
  | error e' =>
    rw [hskip] at hn
    cases hn
    simp only [next, skip, hskip]
  | ok c₁ =>
    rw [hskip] at hn
    have hl : c₁.lexeme = .error e := hn
    simp only [next, skip_of_cursor h hskip, hl]

/-! ## Runs -/

/-- Reading lexeme after lexeme, none of them the end. -/
inductive Reads : Reader → List Lexeme → Reader → Prop where
  | nil (r : Reader) : Reads r [] r
  | cons {r r₁ r₂ : Reader} {l : Lexeme} {ls : List Lexeme} (next : r.next = (.ok l, r₁)) (noEof : l.kind ≠ .eof)
      (more : Reads r₁ ls r₂) : Reads r (l :: ls) r₂

/-- How reading on ends, with some text left: at the end of the text, with a fault, or in front of a character that
starts a name and belongs to none, where it yields the same empty name however often it is tried. -/
inductive Ends (r : Reader) (left : List Char) : Prop where
  | eof (l : Lexeme) (next : r.next.1 = .ok l) (isEof : l.kind = .eof) (blank : Trivia [] left)
  | fault (e : Located) (next : r.next.1 = .error e)
  | stuck (gap : List Char) (c : Char) (more : List Char) (text : left = gap ++ c :: more)
      (blank : Trivia (c :: more) gap) (stray : Scan.isStray c = true) (l : Lexeme) (isName : l.kind = .ident)
      (isEmpty : l.chars = []) (forever : ∀ n, ∃ r', Reads r (List.replicate n l) r')

end Reader

/-- Lexemes one behind the other in a text that starts at an offset, and what is left of it behind the last of them:
each takes at least one character and stands where it says, behind blanks and complete comments only. -/
inductive Laid : Nat → List Char → List Lexeme → List Char → Prop where
  | nil (pos : Nat) (left : List Char) : Laid pos left [] left
  | cons {pos : Nat} {gap : List Char} {l : Lexeme} {rest : List Char} {ls : List Lexeme} {left : List Char}
      (blank : Trivia (l.chars ++ rest) gap) (takes : l.chars ≠ [])
      (start : l.span.start = pos + Text.byteLength gap) (stop : l.span.stop = l.span.start + Text.byteLength l.chars)
      (more : Laid l.span.stop rest ls left) : Laid pos (gap ++ (l.chars ++ rest)) (l :: ls) left

namespace Laid

variable {pos : Nat} {cs left : List Char} {ls : List Lexeme}

theorem length_le (h : Laid pos cs ls left) : ls.length ≤ Text.byteLength cs := by
  induction h with
  | nil => exact Nat.zero_le _
  | @cons pos gap l rest ls left _ takes _ _ _ ih =>
    have hpos : 0 < Text.byteLength l.chars :=
      Nat.pos_of_ne_zero fun hzero => takes (Text.eq_nil_of_byteLength hzero)
    simp only [List.length_cons, Text.byteLength_append]
    omega

theorem le_start (h : Laid pos cs ls left) : ∀ l ∈ ls, pos ≤ l.span.start := by
  induction h with
  | nil => intro l hl; cases hl
  | cons _ _ start stop _ ih =>
    intro l hl
    rcases List.mem_cons.mp hl with rfl | hl
    · omega
    · have := ih l hl
      omega

/-- Lexemes are in order and do not overlap. -/
theorem pairwise (h : Laid pos cs ls left) : ls.Pairwise fun l l' => l.span.stop ≤ l'.span.start := by
  induction h with
  | nil => exact .nil
  | cons _ _ _ _ more ih => exact .cons more.le_start ih

/-- A lexeme is a stretch of the source that is not empty, between characters, and its text is what stands there. -/
theorem span (h : Laid pos cs ls left) (before : List Char) (hpos : pos = Text.byteLength before) : ∀ l ∈ ls,
    l.span.start < l.span.stop ∧ Text.slice? (before ++ cs) l.span.start l.span.stop = some l.chars := by
  induction h generalizing before with
  | nil => intro l hl; cases hl
  | @cons pos gap l rest ls left _ takes start stop _ ih =>
    have hstart : l.span.start = Text.byteLength (before ++ gap) := by rw [start, hpos, Text.byteLength_append]
    intro l' hl'
    rcases List.mem_cons.mp hl' with rfl | hl'
    · have htext : 0 < Text.byteLength l'.chars :=
        Nat.pos_of_ne_zero fun hzero => takes (Text.eq_nil_of_byteLength hzero)
      refine ⟨by omega, ?_⟩
      have hparts : before ++ (gap ++ (l'.chars ++ rest)) = before ++ gap ++ l'.chars ++ rest := by
        simp only [List.append_assoc]
      rw [hparts, stop, hstart]
      exact Text.slice?_part ..
    · have hparts : before ++ (gap ++ (l.chars ++ rest)) = before ++ gap ++ l.chars ++ rest := by
        simp only [List.append_assoc]
      rw [hparts]
      exact ih (before ++ gap ++ l.chars) (by rw [stop, hstart, ← Text.byteLength_append]) l' hl'

end Laid

namespace Reader

variable {r : Reader}

/-- A reader that has met an empty name reads it on and on. -/
theorem reads_stuck {l : Lexeme} {c : Cursor} (h : r.ToEnd) (hn : r.cursor.next = .ok (l, c)) (hk : l.kind = .ident)
    (hl : l.chars = []) (n : Nat) : ∃ r', Reads r (List.replicate n l) r' := by
  have hne : l.kind ≠ .eof := by rw [hk]; decide
  have hagain : c.next = .ok (l, c) := by
    obtain ⟨c₁, hskip, hlex⟩ := Cursor.next_eq hn
    obtain rfl := Cursor.eq_of_empty hlex hl
    exact (Cursor.next_of_skipTrivia hskip).trans hlex
  induction n generalizing r with
  | zero => exact ⟨r, .nil r⟩
  | succ n ih =>
    obtain ⟨gap, hp, -⟩ := Cursor.next_cases h.after hn
    obtain ⟨r', hr'⟩ := ih (h.past hp) hagain
    exact ⟨r', .cons (next_of_cursor h.stop hn) hne hr'⟩

/-- Reading on, from a reader whose part reaches to the end of the source. -/
theorem reads_toEnd (r : Reader) (h : r.ToEnd) :
    ∃ ls left r', Reads r ls r' ∧ Laid r.cursor.pos r.cursor.rest ls left ∧ Ends r' left := by
  -- Every lexeme that does not end the run makes what is left shorter.
  induction hlen : r.cursor.rest.length using Nat.strongRecOn generalizing r with
  | ind n ih =>
    cases hn : r.cursor.next with
    | error e => exact ⟨[], _, r, .nil r, .nil _ _, .fault e (next_of_fault h.stop hn)⟩
    | ok found =>
      obtain ⟨l, c⟩ := found
      obtain ⟨gap, hp, htr, hcases⟩ := Cursor.next_cases h.after hn
      have hrest : r.cursor.rest = gap ++ (l.chars ++ c.rest) := hp.rest.trans (List.append_assoc ..)
      have hnext : r.next.1 = .ok l := by rw [next_of_cursor h.stop hn]
      rcases hcases with ⟨hk, hl, hc⟩ | ⟨hk, hl⟩ | ⟨hk, hl, ch, more, hc, hstray⟩
      · rw [hl, hc] at hrest htr
        rw [List.append_nil, List.append_nil] at hrest
        exact ⟨[], gap, r, .nil r, hrest ▸ .nil _ _, .eof l hnext hk htr⟩
      · have hlt : c.rest.length < n := by
          have := List.length_pos_iff.mpr hl
          rw [← hlen, hrest, List.length_append, List.length_append]
          omega
        obtain ⟨ls, left, r', hreads, hlaid, hends⟩ := ih _ hlt (r.past l c) (h.past hp) rfl
        refine ⟨l :: ls, left, r', .cons (next_of_cursor h.stop hn) hk hreads, ?_, hends⟩
        rw [hrest]
        exact .cons htr hl hp.start hp.stop (hp.pos ▸ hlaid)
      · rw [hl, hc, List.nil_append] at hrest htr
        exact ⟨[], _, r, .nil r, .nil _ _, .stuck gap ch more hrest htr hstray l hk hl (reads_stuck h hn hk hl)⟩

theorem toEnd_ofRange (before cs : List Char) :
    ofRange (before ++ cs) (Text.byteLength before) (Text.byteLength (before ++ cs)) =
      ⟨before ++ cs, Text.byteLength (before ++ cs), ⟨Text.byteLength before, cs, none⟩, none⟩ := by
  have hrange := Cursor.ofRange_part before cs []
  rw [List.append_nil, ← Text.byteLength_append] at hrange
  simp only [ofRange, Nat.min_self, hrange]
  rfl

/-- Reading any text from a place in it to its end. There are at most as many lexemes as bytes; they are not empty,
stand between characters, in order and without overlapping, and what lies in front of them, between them and behind
them is blanks and complete comments. Behind them reading ends at the end of the text, with a fault, or in front of a
character beyond ASCII that is neither a letter nor a number. -/
theorem lexemes_cover_text (before cs : List Char) :
    ∃ ls left r', Reads (ofRange (before ++ cs) (Text.byteLength before) (Text.byteLength (before ++ cs))) ls r' ∧
      Laid (Text.byteLength before) cs ls left ∧ ls.length ≤ Text.byteLength cs ∧
      (∀ l ∈ ls, l.span.start < l.span.stop ∧ Text.slice? (before ++ cs) l.span.start l.span.stop = some l.chars) ∧
      (ls.Pairwise fun l l' => l.span.stop ≤ l'.span.start) ∧ Ends r' left := by
  rw [toEnd_ofRange]
  obtain ⟨ls, left, r', hreads, hlaid, hends⟩ :=
    reads_toEnd ⟨before ++ cs, Text.byteLength (before ++ cs), ⟨Text.byteLength before, cs, none⟩, none⟩
      ⟨rfl, Text.byteLength_append before cs⟩
  exact ⟨ls, left, r', hreads, hlaid, hlaid.length_le, hlaid.span before rfl, hlaid.pairwise, hends⟩

/-- At the sign of the euro an empty name is read, again and again: here are three lexemes of one character. -/
theorem empty_name_at_stray : ∃ r', Reads (ofText ['€']) (List.replicate 3 ⟨.ident, ⟨0, 0⟩, []⟩) r' := by
  have hname : Scan.isNameChar '€' = false := by
    -- The tables are searched as lists, which the kernel does step by step.
    simp only [Scan.isNameChar, Text.isAlphanumeric, Text.isAlphabetic, Text.isNumeric, Text.inRanges]
    decide +kernel
  have htoken : Scan.token none 0 ['€'] = .ok (.ident, ['€']) := by
    rw [Scan.token, if_pos (by decide), List.dropWhile_cons_of_neg (by simp [hname])]
  have hlexeme : (⟨0, ['€'], none⟩ : Cursor).lexeme = .ok (⟨.ident, ⟨0, 0⟩, []⟩, ⟨0, ['€'], none⟩) := by
    rw [Cursor.lexeme, htoken]
    rfl
  have hnext : (⟨0, ['€'], none⟩ : Cursor).next = .ok (⟨.ident, ⟨0, 0⟩, []⟩, ⟨0, ['€'], none⟩) :=
    (Cursor.next_eq_lexeme rfl (by decide) (by decide)).trans hlexeme
  rw [ofText, show ofRange ['€'] 0 (Text.byteLength ['€']) = _ from toEnd_ofRange [] ['€']]
  exact reads_stuck ⟨rfl, rfl⟩ hnext rfl rfl 3

end Reader

end PathScript
