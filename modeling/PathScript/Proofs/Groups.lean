import PathScript.Proofs.Scan

/-! # Groups

The search for the closing bracket of a group passes over strings, comments and
inner brackets, with a stack of those still open. What it takes is balanced, and
it takes all of a balanced text in front of a closing bracket, whatever stands
behind that. So a group is one also where the text is cut right behind it. -/

namespace PathScript

namespace Scan

variable {after : Option Char} {pos : Nat} {x y cs rest text z : List Char}

/-! ## Balanced texts -/

/-- A character that by itself neither opens nor closes anything: no bracket, no quote and no slash. -/
def isPlain (c : Char) : Bool := !isQuote c && c != '/' && (Delim.ofOpener? c).isNone && !Delim.isCloser c

/-- A text in which strings and comments end, a comment in `//` with its line, and brackets match. -/
inductive Balanced : List Char → Prop where
  | nil : Balanced []
  | plain {c : Char} {cs : List Char} (isPlain : isPlain c = true) (more : Balanced cs) : Balanced (c :: cs)
  | slash {cs : List Char} (noComment : comment none cs = .none) (more : Balanced cs) : Balanced ('/' :: cs)
  | line {text cs : List Char} (inLine : '\n' ∉ text) (more : Balanced ('\n' :: cs)) :
      Balanced ('/' :: '/' :: (text ++ '\n' :: cs))
  | block {cs rest : List Char} (ends : blockEnd? cs = some rest) (more : Balanced rest) :
      Balanced ('/' :: '*' :: cs)
  | string {quote : Char} {cs rest : List Char} (isQuote : isQuote quote = true)
      (ends : stringEnd? quote cs = some rest) (more : Balanced rest) : Balanced (quote :: cs)
  | group {text cs : List Char} (d : Delim) (inside : Balanced text) (more : Balanced cs) :
      Balanced (d.opener :: (text ++ d.closer :: cs))

/-! ## Finding the end of a group -/

/-- A text that closes brackets one after the other, up to a rest, and is balanced in front of each. -/
def Closes (rest : List Char) : List Delim → List Char → Prop
  | [], cs => cs = rest
  | d :: ds, cs => ∃ text more, Balanced text ∧ cs = text ++ d.closer :: more ∧ Closes rest ds more

/-- What may be put in front of a balanced text may be put in front of one that closes brackets. -/
theorem Closes.cons {d : Delim} {ds : List Delim} {c : Char} (h : Closes rest (d :: ds) cs)
    (hc : ∀ text more, Balanced text → cs = text ++ d.closer :: more → Balanced (c :: text)) :
    Closes rest (d :: ds) (c :: cs) := by
  obtain ⟨text, more, htext, rfl, hmore⟩ := h
  exact ⟨c :: text, more, hc text more htext rfl, rfl, hmore⟩

theorem Closes.string {d : Delim} {ds : List Delim} {quote : Char} (hq : isQuote quote = true)
    (hs : stringEnd? quote cs = some z) (h : Closes rest (d :: ds) z) : Closes rest (d :: ds) (quote :: cs) := by
  obtain ⟨text, more, htext, rfl, hmore⟩ := h
  obtain ⟨body, rfl⟩ := suffix_stringEnd? hs
  rw [← List.append_assoc] at hs
  exact ⟨quote :: (body ++ text), more, .string hq (stringEnd?_cut hs) htext, by simp, hmore⟩

theorem closer_ne (d : Delim) : d.closer ≠ '\n' ∧ d.closer ≠ '/' ∧ d.closer ≠ '*' := by
  cases d <;> decide

theorem utf8Size_opener (d : Delim) : d.opener.utf8Size = 1 := by cases d <;> rfl

theorem utf8Size_closer (d : Delim) : d.closer.utf8Size = 1 := by cases d <;> rfl

theorem ofOpener?_opener (d : Delim) : Delim.ofOpener? d.opener = some d := by cases d <;> rfl

/-- The two kinds of comments. One in `//` leaves the end of its line, unless nothing is left. -/
theorem comment_cases (h : comment after cs = .closed rest) (hrest : rest ≠ []) :
    (∃ text more, '\n' ∉ text ∧ cs = '/' :: (text ++ '\n' :: more) ∧ rest = '\n' :: more) ∨
      ∃ cs', cs = '*' :: cs' ∧ blockEnd? cs' = some rest := by
  cases cs with
  | nil => exact absurd (List.suffix_nil.mp (suffix_comment h)) hrest
  | cons c cs =>
    unfold comment at h
    simp only [List.head?_cons, Option.some_or, List.tail_cons] at h
    split at h
    next heq =>
      cases heq
      have hdrop : ('/' :: cs).dropWhile (· != '\n') = cs.dropWhile (· != '\n') := List.dropWhile_cons_of_pos (by decide)
      have hr : cs.dropWhile (· != '\n') = rest := hdrop ▸ Comment.closed.inj h
      obtain ⟨c, more, rfl⟩ := List.exists_cons_of_ne_nil hrest
      have hc : c = '\n' := by
        have := List.head?_dropWhile_not (· != '\n') cs
        rw [hr] at this
        simpa using this
      subst hc
      refine .inl ⟨cs.takeWhile (· != '\n'), more, fun hmem => ?_, ?_, rfl⟩
      · have := List.all_eq_true.mp List.all_takeWhile _ hmem
        simp at this
      · rw [← hr, List.takeWhile_append_dropWhile]
    next heq =>
      cases heq
      split at h
      next hb => cases h; exact .inr ⟨cs, rfl, hb⟩
      next => cases h
    next => cases h

theorem Closes.comment {d : Delim} {ds : List Delim} (hc : comment after cs = .closed z)
    (h : Closes rest (d :: ds) z) : Closes rest (d :: ds) ('/' :: cs) := by
  obtain ⟨text, more, htext, rfl, hmore⟩ := h
  rcases comment_cases hc (by simp) with ⟨inLine, more', hline, rfl, heq⟩ | ⟨cs, rfl, hb⟩
  · -- The end of the line is no closing bracket, so it is part of what is inside.
    cases text with
    | nil => exact absurd (List.cons.inj heq).1 (closer_ne d).1
    | cons c text =>
      obtain ⟨rfl, rfl⟩ := List.cons.inj heq
      exact ⟨'/' :: '/' :: (inLine ++ '\n' :: text), more, .line hline htext, by simp, hmore⟩
  · obtain ⟨body, rfl⟩ := suffix_blockEnd? hb
    rw [← List.append_assoc] at hb
    exact ⟨'/' :: '*' :: (body ++ text), more, .block (blockEnd?_cut hb) htext, by simp, hmore⟩

/-- The brackets that are open, innermost first, the first of all last. -/
def delims (first : Opened) (nested : List Opened) : List Delim := nested.map (·.delim) ++ [first.delim]

theorem delims_ne_nil (first : Opened) (nested : List Opened) : ∃ d ds, delims first nested = d :: ds := by
  cases nested with
  | nil => exact ⟨_, _, rfl⟩
  | cons o nested => exact ⟨_, _, rfl⟩

theorem isPlain_iff {c : Char} : isPlain c = true ↔
    isQuote c = false ∧ c ≠ '/' ∧ Delim.ofOpener? c = none ∧ Delim.isCloser c = false := by
  simp [isPlain, and_assoc]

theorem bracketsBehind_cases {first : Opened} {nested : List Opened} {c : Char} {more : Option (List Opened)}
    (h : bracketsBehind first nested pos c = .ok more) : (∃ d, c = d.opener ∧ more = some (⟨d, pos⟩ :: nested)) ∨
      (∃ d, c = d.closer ∧ ((∃ outer, more = some outer ∧ delims first nested = d :: delims first outer) ∨
        more = none ∧ delims first nested = [d])) ∨
      (Delim.ofOpener? c = none ∧ Delim.isCloser c = false ∧ more = some nested) := by
  unfold bracketsBehind at h
  split at h
  next d hd => cases h; exact .inl ⟨d, eq_opener_of_ofOpener? hd, rfl⟩
  next hopen =>
    refine .inr ?_
    dsimp only at h
    split at h
    next =>
      split at h
      next hcloser =>
        cases nested with
        | nil => cases h; exact .inl ⟨first.delim, hcloser.symm, .inr ⟨rfl, rfl⟩⟩
        | cons o outer => cases h; exact .inl ⟨o.delim, hcloser.symm, .inl ⟨outer, rfl, rfl⟩⟩
      next => cases h
    next hcloser => cases h; exact .inr ⟨hopen, by simpa using hcloser, rfl⟩

/-- The search for the end of a group takes balanced texts, one for each bracket that is open. -/
theorem closes_of_groupEnd {first : Opened} {nested : List Opened} {stop : Nat}
    (h : groupEnd after first nested pos cs = .ok (stop, rest)) : Closes rest (delims first nested) cs := by
  fun_induction groupEnd after first nested pos cs with
  | case1 => cases h
  | case2 => cases h
  | case3 nested pos c r hq rest' hs ih =>
    obtain ⟨d, ds, hds⟩ := delims_ne_nil first nested
    rw [hds] at ih ⊢
    exact (ih h).string hq hs
  | case4 => cases h
  | case5 nested pos c r _ rest' hc ih =>
    obtain ⟨d, ds, hds⟩ := delims_ne_nil first nested
    unfold commentAt at hc
    split at hc
    next hslash =>
      rw [hds] at ih ⊢
      rw [hslash]
      exact .comment hc (ih h)
    next => cases hc
  | case6 => cases h
  | case7 nested pos c r _ _ hb =>
    cases h
    rcases bracketsBehind_cases hb with ⟨d, -, hm⟩ | ⟨d, rfl, ⟨outer, hm, -⟩ | ⟨-, hds⟩⟩ | ⟨-, -, hm⟩
    · cases hm
    · cases hm
    · rw [hds]
      exact ⟨[], rest, .nil, rfl, rfl⟩
    · cases hm
  | case8 nested pos c r hq hcom more hb ih =>
    rcases bracketsBehind_cases hb with ⟨d, rfl, hm⟩ | ⟨d, rfl, ⟨outer, hm, hds⟩ | ⟨hm, -⟩⟩ | ⟨hopen, hcloser, hm⟩
    · -- An inner bracket: what closes it first and what closes the next one are put together.
      cases hm
      obtain ⟨inner, more, hinner, rfl, hmore⟩ := ih h
      obtain ⟨d', ds, hds⟩ := delims_ne_nil first nested
      change Closes rest (delims first nested) more at hmore
      rw [hds] at hmore ⊢
      obtain ⟨text, more, htext, rfl, hmore⟩ := hmore
      exact ⟨d.opener :: (inner ++ d.closer :: text), more, .group d hinner htext, by simp, hmore⟩
    · cases hm
      rw [hds]
      exact ⟨[], r, .nil, rfl, ih h⟩
    · cases hm
    · cases hm
      obtain ⟨d, ds, hds⟩ := delims_ne_nil first nested
      rw [hds] at ih ⊢
      refine (ih h).cons fun text more htext heq => ?_
      by_cases hslash : c = '/'
      · subst hslash
        rw [commentAt, if_pos rfl, heq] at hcom
        exact .slash (comment_none_cut hcom) htext
      · exact .plain (isPlain_iff.mpr ⟨by simpa using hq, hslash, hopen, hcloser⟩) htext

theorem balanced_of_groupEnd {first : Opened} {stop : Nat} (h : groupEnd after first [] pos cs = .ok (stop, rest)) :
    ∃ text, Balanced text ∧ cs = text ++ first.delim.closer :: rest := by
  obtain ⟨text, more, htext, rfl, hmore⟩ := closes_of_groupEnd h
  exact ⟨text, htext, by rw [show more = rest from hmore]⟩

theorem balanced_of_group {d : Delim} (h : token after pos cs = .ok (.group d, rest)) :
    ∃ text, Balanced text ∧ cs = d.opener :: (text ++ d.closer :: rest) := by
  cases tokenAt_of_eq h with
  | group hg =>
    obtain ⟨text, htext, rfl⟩ := balanced_of_groupEnd hg
    exact ⟨text, htext, rfl⟩
  | symbol hmem => rcases isPoint_of_mem_symbols _ hmem rfl with heq | heq <;> cases heq

/-! ## Passing over balanced texts -/

theorem comment_of_line (inLine : '\n' ∉ text) (after : Option Char) (cs : List Char) :
    comment after ('/' :: (text ++ '\n' :: cs)) = .closed ('\n' :: cs) := by
  have hdrop : ('/' :: text ++ '\n' :: cs).dropWhile (· != '\n') = '\n' :: cs := by
    rw [List.dropWhile_append_of_pos, List.dropWhile_cons_of_neg (by decide)]
    intro c hc
    rcases List.mem_cons.mp hc with rfl | hc
    · decide
    · exact bne_iff_ne.mpr fun heq => inLine (heq ▸ hc)
  exact congrArg Comment.closed hdrop

theorem comment_of_block (h : blockEnd? cs = some rest) (after : Option Char) :
    comment after ('*' :: cs) = .closed rest := by
  simp only [comment, List.head?_cons, Option.some_or, List.tail_cons, h]

theorem comment_eq_none_iff : comment after cs = .none ↔ ∀ c, cs.head?.or after = some c → c ≠ '/' ∧ c ≠ '*' := by
  unfold comment
  split
  next heq => simp [heq]
  next heq => split <;> simp [heq]
  next hslash hstar =>
    refine ⟨fun _ c hc => ⟨?_, ?_⟩, fun _ => rfl⟩
    · rintro rfl; exact hslash hc
    · rintro rfl; exact hstar hc

/-- A slash that starts no comment starts none in front of a closing bracket either. -/
theorem comment_none_closer (h : comment none cs = .none) (d : Delim) {z : List Char}
    (hz : z.head?.or after = some d.closer) : comment after (cs ++ z) = .none := by
  rw [comment_eq_none_iff] at h ⊢
  intro c hc
  cases cs with
  | nil =>
    obtain rfl := Option.some.inj (hz.symm.trans hc)
    exact (closer_ne d).2
  | cons c' cs => exact h c hc

section Past

variable {first : Opened} {nested : List Opened} {body : List Char}

theorem bytesUpTo_cons_append (c : Char) (body rest : List Char) :
    bytesUpTo (c :: (body ++ rest)) rest = Text.byteLength (c :: body) := by
  rw [bytesUpTo, ← List.cons_append, Text.byteLength_append, Nat.add_sub_cancel]

theorem groupEnd_past_string {quote : Char} (hq : isQuote quote = true)
    (h : stringEnd? quote (body ++ rest) = some rest) : groupEnd after first nested pos (quote :: (body ++ rest)) =
      groupEnd after first nested (pos + Text.byteLength (quote :: body)) rest := by
  rw [groupEnd_of_string hq h, bytesUpTo_cons_append]

theorem groupEnd_past_comment (h : comment after (body ++ rest) = .closed rest) :
    groupEnd after first nested pos ('/' :: (body ++ rest)) =
      groupEnd after first nested (pos + Text.byteLength ('/' :: body)) rest := by
  have hcomment : commentAt after '/' (body ++ rest) = .closed rest := h
  rw [groupEnd_of_comment (by decide) hcomment, bytesUpTo_cons_append]

theorem groupEnd_past_plain {c : Char} (hc : isPlain c = true) :
    groupEnd after first nested pos (c :: rest) = groupEnd after first nested (pos + c.utf8Size) rest := by
  obtain ⟨hq, hslash, hopen, hcloser⟩ := isPlain_iff.mp hc
  have hcomment : commentAt after c rest = .none := if_neg hslash
  have hbrackets : bracketsBehind first nested pos c = .ok (some nested) := by
    simp [bracketsBehind, hopen, hcloser]
  exact groupEnd_of_open (by simp [hq]) hcomment hbrackets

theorem groupEnd_past_slash (h : comment after rest = .none) :
    groupEnd after first nested pos ('/' :: rest) = groupEnd after first nested (pos + 1) rest :=
  groupEnd_of_open (by decide) h rfl

theorem groupEnd_past_opener (d : Delim) : groupEnd after first nested pos (d.opener :: rest) =
    groupEnd after first (⟨d, pos⟩ :: nested) (pos + 1) rest := by
  cases d <;> exact groupEnd_of_open (by decide) rfl rfl

theorem groupEnd_past_closer (d : Delim) (start : Nat) :
    groupEnd after first (⟨d, start⟩ :: nested) pos (d.closer :: rest) = groupEnd after first nested (pos + 1) rest := by
  cases d <;> exact groupEnd_of_open (by decide) rfl rfl

theorem groupEnd_closer (d : Delim) (start : Nat) :
    groupEnd after ⟨d, start⟩ [] pos (d.closer :: rest) = .ok (pos, rest) := by
  cases d <;> exact groupEnd_of_closed (by decide) rfl rfl

end Past

/-- The search for a closing bracket passes over a balanced text in front of one. -/
theorem groupEnd_of_balanced (h : Balanced text) (d : Delim) (z : List Char) (first : Opened) (nested : List Opened)
    (pos : Nat) : groupEnd after first nested pos (text ++ d.closer :: z) =
      groupEnd after first nested (pos + Text.byteLength text) (d.closer :: z) := by
  induction h generalizing d z nested pos with
  | nil => rfl
  | @plain c cs hc _ ih =>
    rw [List.cons_append, groupEnd_past_plain hc, ih, Text.byteLength_cons, Nat.add_assoc]
  | @slash cs hc _ ih =>
    have hsize : ('/' : Char).utf8Size = 1 := rfl
    rw [List.cons_append, groupEnd_past_slash (comment_none_closer hc d rfl), ih, Text.byteLength_cons, hsize, Nat.add_assoc]
  | @line text cs hline _ ih =>
    have hcomment : comment after ('/' :: text ++ ('\n' :: cs ++ d.closer :: z)) = .closed ('\n' :: cs ++ d.closer :: z) :=
      comment_of_line hline after _
    have hsplit : '/' :: '/' :: (text ++ '\n' :: cs) ++ d.closer :: z =
        '/' :: ('/' :: text ++ ('\n' :: cs ++ d.closer :: z)) := by simp
    rw [hsplit, groupEnd_past_comment hcomment, ih, Nat.add_assoc, ← Text.byteLength_append]
    rfl
  | @block cs rest hb _ ih =>
    have hend := blockEnd?_append hb (d.closer :: z)
    obtain ⟨used, rfl⟩ := suffix_blockEnd? hb
    rw [List.append_assoc] at hend
    have hcomment : comment after ('*' :: used ++ (rest ++ d.closer :: z)) = .closed (rest ++ d.closer :: z) :=
      comment_of_block hend after
    have hsplit : '/' :: '*' :: (used ++ rest) ++ d.closer :: z =
        '/' :: ('*' :: used ++ (rest ++ d.closer :: z)) := by simp
    rw [hsplit, groupEnd_past_comment hcomment, ih, Nat.add_assoc, ← Text.byteLength_append]
    rfl
  | @string quote cs rest hq hs _ ih =>
    have hend := stringEnd?_append hs (d.closer :: z)
    obtain ⟨used, rfl⟩ := suffix_stringEnd? hs
    rw [List.append_assoc] at hend
    rw [List.cons_append, List.append_assoc, groupEnd_past_string hq hend, ih, Nat.add_assoc, ← Text.byteLength_append]
    rfl
  | @group inner cs d' _ _ ihinner ihcs =>
    have hsplit : d'.opener :: (inner ++ d'.closer :: cs) ++ d.closer :: z =
        d'.opener :: (inner ++ d'.closer :: (cs ++ d.closer :: z)) := by simp
    rw [hsplit, groupEnd_past_opener, ihinner, groupEnd_past_closer, ihcs]
    simp only [Text.byteLength_append, Text.byteLength_cons, utf8Size_opener, utf8Size_closer]
    congr 1
    omega

/-- A balanced text behind an opening bracket and in front of the closing one is all of the group. -/
theorem groupEnd_eq_of_balanced (h : Balanced text) (d : Delim) (start pos : Nat) (z : List Char) :
    groupEnd after ⟨d, start⟩ [] pos (text ++ d.closer :: z) = .ok (pos + Text.byteLength text, z) := by
  rw [groupEnd_of_balanced h]
  exact groupEnd_closer d start

theorem token_of_balanced (h : Balanced text) (d : Delim) (z : List Char) :
    token after pos (d.opener :: (text ++ d.closer :: z)) = .ok (.group d, z) := by
  have hgroup : (groupEnd after ⟨d, pos⟩ [] (pos + d.opener.utf8Size) (text ++ d.closer :: z)).map
      (fun found => (TokenKind.group d, found.2)) = .ok (.group d, z) := by
    rw [groupEnd_eq_of_balanced h]
    rfl
  cases d <;> exact hgroup

/-! ## Tokens -/

theorem suffix_token {kind : TokenKind} (h : token after pos cs = .ok (kind, rest)) : rest <:+ cs := by
  cases tokenAt_of_eq h with
  | eof => exact List.suffix_refl _
  | name => exact List.dropWhile_suffix _
  | number _ hn => exact suffix_number hn
  | string _ hs => exact (suffix_stringEnd? hs).trans (List.suffix_cons _ _)
  | group hg =>
    obtain ⟨text, -, rfl⟩ := balanced_of_groupEnd hg
    exact ((List.suffix_cons _ _).trans (List.suffix_append text _)).trans (List.suffix_cons _ _)
  | symbol => exact List.suffix_append _ _

theorem length_of_number_dot (hd : startsWith Char.isDigit cs = true) (h : number ('.' :: cs) = .ok rest) :
    rest.length < cs.length := by
  rw [number_of_decimal (by intro c r heq; cases heq)] at h
  have hle := ((suffix_numberEnd h).trans (suffix_exponent _)).length_le
  rw [List.dropWhile_cons_of_neg (by decide), fraction_dot, if_pos hd] at hle
  exact Nat.lt_of_le_of_lt hle (length_dropWhile_lt hd)

theorem startsNumber_of_append {c : Char} (h : startsNumber c (x ++ z) = false) : startsNumber c x = false := by
  simp only [startsNumber, Bool.or_eq_false_iff, Bool.and_eq_false_iff] at h ⊢
  exact ⟨h.1, h.2.imp_right startsWith_of_append⟩

/-- The digits behind a point are not taken from what follows the number. -/
theorem startsNumber_cut {c : Char} (hs : startsNumber c (x ++ z) = true)
    (h : number (c :: (x ++ z)) = .ok (y ++ z)) : startsNumber c x = true := by
  cases x with
  | cons d x => exact hs
  | nil =>
    simp only [startsNumber, Bool.or_eq_true, Bool.and_eq_true, decide_eq_true_eq, List.nil_append] at hs h ⊢
    rcases hs with hdigit | ⟨rfl, hs⟩
    · exact .inl hdigit
    · exact absurd (length_of_number_dot hs h) (by simp)

/-- A token of a path is the same whatever follows. -/
theorem token_cut {kind : TokenKind} (hk : kind.isPathPart = true) (h : token after pos (x ++ z) = .ok (kind, y ++ z))
    (hx : x ≠ []) (start : Nat) : token none start x = .ok (kind, y) := by
  by_cases hgroup : ∃ d, kind = .group d
  · obtain ⟨d, rfl⟩ := hgroup
    obtain ⟨text, htext, heq⟩ := balanced_of_group h
    have hcut : x ++ z = d.opener :: (text ++ d.closer :: y) ++ z := by rw [heq]; simp
    rw [List.append_cancel_right hcut]
    exact token_of_balanced htext d y
  obtain ⟨c, x, rfl⟩ := List.exists_cons_of_ne_nil hx
  unfold token at h ⊢
  simp only [List.cons_append] at h ⊢
  by_cases hname : isNameStart c = true
  · simp only [if_pos hname, Except.ok.injEq, Prod.mk.injEq] at h ⊢
    exact ⟨h.1, (local_dropWhile isNameChar).cut h.2⟩
  simp only [if_neg hname] at h ⊢
  by_cases hnumber : startsNumber c (x ++ z) = true
  · simp only [if_pos hnumber] at h
    cases hn : number (c :: (x ++ z)) with
    | error e => rw [hn] at h; cases h
    | ok rest =>
      rw [hn] at h
      cases h
      have hcut : number (c :: x) = .ok y := number_cut hn
      simp only [if_pos (startsNumber_cut hnumber hn), hcut]
  simp only [if_neg hnumber] at h
  simp only [startsNumber_of_append (Bool.eq_false_iff.mpr hnumber), Bool.false_eq_true, if_false]
  by_cases hquote : isQuote c = true
  · simp only [if_pos hquote] at h ⊢
    cases hs : stringEnd? c (x ++ z) with
    | none => rw [hs] at h; cases h
    | some rest =>
      rw [hs] at h
      cases h
      simp only [stringEnd?_cut hs]
  simp only [if_neg hquote] at h ⊢
  cases hd : Delim.ofOpener? c with
  | some d =>
    simp only [hd] at h ⊢
    cases hg : groupEnd after ⟨d, pos⟩ [] (pos + c.utf8Size) (x ++ z) with
    | error e => rw [hg] at h; cases h
    | ok found =>
      obtain ⟨stop, rest⟩ := found
      rw [hg] at h
      cases h
      exact absurd ⟨d, rfl⟩ hgroup
  | none =>
    simp only [hd] at h ⊢
    by_cases hclose : Delim.isCloser c = true
    · simp only [if_pos hclose] at h
      cases h
    simp only [if_neg hclose] at h ⊢
    cases hs : symbol? (c :: (x ++ z)) with
    | none => rw [hs] at h; cases h
    | some found =>
      rw [hs] at h
      cases h
      have hcut : symbol? (c :: x) = some (kind, y) := symbol?_cut hk hs
      simp only [hcut]

end Scan

end PathScript
