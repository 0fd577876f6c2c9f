import PathScript.Token.Cursor

/-! # Scanners look no further than they read

A path keeps the stretch of source it was read from as its text. For the text to
say what the path is, a token has to be read the same way inside of the source
and at the end of a text cut right behind it. So every scanner leaves a suffix
of what it was given, and if it leaves `y ++ z` of `x ++ z`, then it leaves `y`
of `x` alone. The character behind a part, by which a comment can be recognised,
plays no role as long as something is left to read. -/

namespace PathScript

namespace Scan

variable {x y z cs rest : List Char} {c : Char} {after : Option Char} {pos pos' : Nat}

/-! ## Suffixes -/

theorem exists_of_suffix_append (h : rest <:+ x ++ z) (hz : z <:+ rest) : ∃ y, rest = y ++ z ∧ y <:+ x := by
  obtain ⟨y, rfl⟩ := hz
  obtain ⟨u, hu⟩ := h
  rw [← List.append_assoc] at hu
  exact ⟨y, rfl, u, List.append_cancel_right hu⟩

theorem length_lt_of_append (hy : y ≠ []) : ¬ (y ++ z).length ≤ z.length := by
  have := List.length_pos_iff.mpr hy
  simp only [List.length_append]
  omega

theorem exists_cons_of_append (hcs : x ++ z = c :: cs) (h : rest.length ≤ (c :: cs).length)
    (hr : y ++ z = rest) (hy : y ≠ []) : ∃ x', x = c :: x' ∧ cs = x' ++ z := by
  cases x with
  | nil =>
    subst hr
    rw [← hcs] at h
    exact absurd h (length_lt_of_append hy)
  | cons d x =>
    cases hcs
    exact ⟨x, rfl, rfl⟩

theorem ne_append_of_length_lt (h : rest.length < z.length) : rest ≠ y ++ z := by
  rintro rfl
  simp only [List.length_append] at h
  omega

/-! ## Scanners that always succeed -/

/-- A scanner that leaves a suffix, and the same one whatever follows. -/
structure Local (f : List Char → List Char) : Prop where
  suffix : ∀ cs, f cs <:+ cs
  cut : ∀ {x y z}, f (x ++ z) = y ++ z → f x = y

theorem Local.comp {f g : List Char → List Char} (hf : Local f) (hg : Local g) : Local (fun cs => f (g cs)) where
  suffix cs := (hf.suffix _).trans (hg.suffix cs)
  cut {x y z} h := by
    have hz : z <:+ g (x ++ z) := (List.suffix_append y z).trans (h ▸ hf.suffix _)
    obtain ⟨w, hw, -⟩ := exists_of_suffix_append (hg.suffix _) hz
    rw [hg.cut hw]
    exact hf.cut (hw ▸ h)

theorem Local.eq_nil {f : List Char → List Char} (suffix : ∀ cs, f cs <:+ cs) (h : f z = y ++ z) : y = [] := by
  have hl := (suffix z).length_le
  rw [h] at hl
  exact List.length_eq_zero_iff.mp (by simp only [List.length_append] at hl; omega)

theorem local_dropWhile (p : Char → Bool) : Local (List.dropWhile p) where
  suffix cs := cs.dropWhile_suffix p
  cut {x y z} h := by
    rw [List.dropWhile_append] at h
    split at h
    next he =>
      rw [Local.eq_nil (fun cs => cs.dropWhile_suffix p) h]
      exact List.isEmpty_iff.mp he
    next => exact List.append_cancel_right h

theorem skipOne_cons (p : Char → Bool) (c : Char) (cs : List Char) :
    skipOne p (c :: cs) = if p c then cs else c :: cs := rfl

theorem suffix_skipOne (p : Char → Bool) (cs : List Char) : skipOne p cs <:+ cs := by
  cases cs with
  | nil => exact List.suffix_refl _
  | cons c cs =>
    rw [skipOne_cons]
    split
    · exact List.suffix_cons c cs
    · exact List.suffix_refl _

theorem local_skipOne (p : Char → Bool) : Local (skipOne p) where
  suffix := suffix_skipOne p
  cut {x y z} h := by
    cases x with
    | nil => rw [Local.eq_nil (suffix_skipOne p) h]; rfl
    | cons c x =>
      rw [List.cons_append, skipOne_cons] at h
      rw [skipOne_cons]
      split at h
      next hc => rw [if_pos hc]; exact List.append_cancel_right h
      next hc => rw [if_neg hc]; exact List.append_cancel_right h

@[simp] theorem startsWith_cons (p : Char → Bool) (c : Char) (cs : List Char) : startsWith p (c :: cs) = p c := rfl

theorem startsWith_append {p : Char → Bool} (h : startsWith p x = true) : startsWith p (x ++ z) = true := by
  cases x with
  | nil => cases h
  | cons c x => exact h

/-- What does not start in some way does not do so when it is cut either. -/
theorem startsWith_of_append {p : Char → Bool} (h : startsWith p (x ++ z) = false) : startsWith p x = false := by
  cases x with
  | nil => rfl
  | cons c x => exact h

theorem startsWith_skipOne_append {p q : Char → Bool} (h : startsWith p (skipOne q x) = true) :
    startsWith p (skipOne q (x ++ z)) = true := by
  cases x with
  | nil => cases h
  | cons c x =>
    rw [List.cons_append, skipOne_cons]
    rw [skipOne_cons] at h
    by_cases hc : q c = true
    · rw [if_pos hc] at h ⊢
      exact startsWith_append h
    · rw [if_neg hc] at h ⊢
      exact h

theorem length_dropWhile_lt {p : Char → Bool} (h : startsWith p cs = true) : (cs.dropWhile p).length < cs.length := by
  cases cs with
  | nil => cases h
  | cons c cs =>
    rw [startsWith_cons] at h
    rw [List.dropWhile_cons_of_pos h]
    exact Nat.lt_succ_of_le (length_dropWhile_le p cs)

theorem fraction_dot (cs : List Char) :
    fraction ('.' :: cs) = if startsWith Char.isDigit cs then cs.dropWhile Char.isDigit else '.' :: cs := rfl

theorem fraction_other (hc : c ≠ '.') (cs : List Char) : fraction (c :: cs) = c :: cs := by
  unfold fraction
  split
  next heq => cases heq; exact absurd rfl hc
  next => rfl

theorem suffix_fraction (cs : List Char) : fraction cs <:+ cs := by
  unfold fraction
  split
  · split
    · exact (List.dropWhile_suffix _).trans (List.suffix_cons _ _)
    · exact List.suffix_refl _
  · exact List.suffix_refl _

theorem local_fraction : Local fraction where
  suffix := suffix_fraction
  cut {x y z} h := by
    cases x with
    | nil => rw [Local.eq_nil suffix_fraction h]; rfl
    | cons c x =>
      by_cases hc : c = '.'
      · subst hc
        rw [List.cons_append, fraction_dot] at h
        rw [fraction_dot]
        by_cases hd : startsWith Char.isDigit (x ++ z) = true
        · rw [if_pos hd] at h
          cases x with
          | nil => exact absurd h (ne_append_of_length_lt (length_dropWhile_lt hd))
          | cons d x =>
            rw [if_pos (by simpa using hd)]
            exact (local_dropWhile _).cut h
        · rw [if_neg hd] at h
          rw [if_neg (by simpa using startsWith_of_append (by simpa using hd))]
          exact List.append_cancel_right h
      · rw [List.cons_append, fraction_other hc] at h
        rw [fraction_other hc]
        exact List.append_cancel_right h

theorem suffix_exponent (cs : List Char) : exponent cs <:+ cs := by
  unfold exponent
  dsimp only
  split
  · exact (List.dropWhile_suffix _).trans ((suffix_skipOne _ _).trans (suffix_skipOne _ cs))
  · exact List.suffix_refl _

theorem local_exponent : Local exponent where
  suffix := suffix_exponent
  cut {x y z} h := by
    by_cases hm : startsWith isExponentMark x = true
    · obtain ⟨c, x, rfl⟩ : ∃ c x', x = c :: x' := by
        cases x with
        | nil => cases hm
        | cons c x => exact ⟨c, x, rfl⟩
      rw [startsWith_cons] at hm
      simp only [exponent, List.cons_append, skipOne_cons, startsWith_cons, hm, if_true, Bool.true_and] at h ⊢
      by_cases hd : startsWith Char.isDigit (skipOne isSign (x ++ z)) = true
      · rw [if_pos hd] at h
        have hz : z <:+ skipOne isSign (x ++ z) := (List.suffix_append y z).trans (h ▸ List.dropWhile_suffix _)
        obtain ⟨w, hw, -⟩ := exists_of_suffix_append (suffix_skipOne _ _) hz
        rw [hw] at h hd
        have hx : startsWith Char.isDigit w = true := by
          cases w with
          | nil => exact absurd h (ne_append_of_length_lt (length_dropWhile_lt hd))
          | cons d w => exact hd
        rw [(local_skipOne isSign).cut hw, if_pos hx]
        exact (local_dropWhile _).cut h
      · rw [if_neg hd] at h
        rw [if_neg fun hx => hd (startsWith_skipOne_append hx)]
        exact List.append_cancel_right h
    · cases x with
      | nil => rw [Local.eq_nil suffix_exponent h]; rfl
      | cons c x =>
        rw [startsWith_cons] at hm
        simp only [exponent, List.cons_append, startsWith_cons, hm, Bool.false_and, Bool.false_eq_true,
          if_false] at h ⊢
        exact List.append_cancel_right h

theorem local_decimal : Local decimal := local_exponent.comp (local_fraction.comp (local_dropWhile _))

/-! ## Numbers, strings and comments -/

theorem suffix_numberEnd (h : numberEnd cs = .ok rest) : rest <:+ cs := by
  unfold numberEnd at h
  dsimp only at h
  split at h
  next => cases h
  next =>
    cases h
    exact suffix_skipOne _ _

theorem numberEnd_cut (h : numberEnd (x ++ z) = .ok (y ++ z)) : numberEnd x = .ok y := by
  unfold numberEnd at h ⊢
  dsimp only at h ⊢
  split at h
  next => cases h
  next hc =>
    have hy := Except.ok.inj h
    rw [hy, Bool.not_eq_true] at hc
    rw [(local_skipOne isSuffix).cut hy, if_neg (by simp [startsWith_of_append hc])]

theorem number_of_hex (hc : isHexMark c = true) (cs : List Char) : number ('0' :: c :: cs) =
    if startsWith isHexDigit cs then numberEnd (cs.dropWhile isHexDigit) else .error .emptyHexLiteral := by
  simp [number, hc]

theorem number_of_decimal (h : ∀ c rest, cs = '0' :: c :: rest → isHexMark c = false) :
    number cs = numberEnd (decimal cs) := by
  unfold number
  split
  next c rest => rw [h c rest rfl]; rfl
  next => rfl

theorem suffix_number (h : number cs = .ok rest) : rest <:+ cs := by
  unfold number at h
  split at h
  next c r =>
    split at h
    next =>
      split at h
      next =>
        exact (suffix_numberEnd h).trans ((List.dropWhile_suffix _).trans ⟨['0', c], rfl⟩)
      next => cases h
    next => exact (suffix_numberEnd h).trans (local_decimal.suffix _)
  next => exact (suffix_numberEnd h).trans (local_decimal.suffix _)

/-- A number whose end is found in decimal notation does not change its notation when it is cut. -/
theorem number_cut_of_decimal (h : numberEnd (decimal (x ++ z)) = .ok (y ++ z))
    (hx : ∀ c rest, x = '0' :: c :: rest → isHexMark c = false) : number x = .ok y := by
  rw [number_of_decimal hx]
  have hz : z <:+ decimal (x ++ z) := (List.suffix_append y z).trans (suffix_numberEnd h)
  obtain ⟨w, hw, -⟩ := exists_of_suffix_append (local_decimal.suffix _) hz
  rw [local_decimal.cut hw]
  exact numberEnd_cut (hw ▸ h)

theorem number_cut (h : number (x ++ z) = .ok (y ++ z)) : number x = .ok y := by
  by_cases hhex : ∃ c rest, x ++ z = '0' :: c :: rest ∧ isHexMark c = true
  · obtain ⟨c, r, hcs, hc⟩ := hhex
    rw [hcs, number_of_hex hc] at h
    split at h
    next hd =>
      have hz : z <:+ r.dropWhile isHexDigit := (List.suffix_append y z).trans (suffix_numberEnd h)
      have hlt := Nat.lt_of_le_of_lt hz.length_le (length_dropWhile_lt hd)
      -- The mark and at least one digit are taken, so both lie in the first part.
      match x with
      | [] =>
        rw [List.nil_append] at hcs
        exact absurd hlt (by rw [hcs]; simp only [List.length_cons]; omega)
      | [a] =>
        cases hcs
        exact absurd hlt (by simp only [List.length_cons]; omega)
      | a :: b :: x =>
        cases hcs
        obtain ⟨w, hw, -⟩ := exists_of_suffix_append (List.dropWhile_suffix _) hz
        have hx : startsWith isHexDigit x = true := by
          cases x with
          | nil => exact absurd hlt (Nat.lt_irrefl _)
          | cons d x => exact hd
        rw [number_of_hex hc, if_pos hx, (local_dropWhile isHexDigit).cut hw]
        exact numberEnd_cut (hw ▸ h)
    next => cases h
  · have hdec : ∀ c rest, x ++ z = '0' :: c :: rest → isHexMark c = false := fun c rest heq =>
      Bool.eq_false_iff.mpr fun hc => hhex ⟨c, rest, heq, hc⟩
    rw [number_of_decimal hdec] at h
    exact number_cut_of_decimal h fun c rest heq => hdec c (rest ++ z) (by rw [heq]; rfl)

theorem suffix_stringEnd? {quote : Char} (h : stringEnd? quote cs = some rest) : rest <:+ cs := by
  fun_induction stringEnd? quote cs with
  | case1 => cases h
  | case2 => cases h
  | case3 c r ih => exact (ih h).trans ⟨['\\', c], rfl⟩
  | case4 r => cases h; exact List.suffix_cons _ _
  | case5 c r _ _ _ ih => exact (ih h).trans (List.suffix_cons _ _)

theorem stringEnd?_escape (quote c : Char) (cs : List Char) :
    stringEnd? quote ('\\' :: c :: cs) = stringEnd? quote cs := by
  rw [stringEnd?]

theorem stringEnd?_plain (quote : Char) (hc : c ≠ '\\') (cs : List Char) :
    stringEnd? quote (c :: cs) = if c = quote then some cs else stringEnd? quote cs := by
  rw [stringEnd?]
  · intro h; exact absurd h hc
  · intro d r h; exact absurd h hc

/-- A character that is no backslash, as the cases of the scan have it. -/
theorem ne_backslash (hone : c = '\\' → cs = [] → False)
    (hmore : ∀ d rest, c = '\\' → cs = d :: rest → False) : c ≠ '\\' := fun hc => by
  cases cs with
  | nil => exact hone hc rfl
  | cons d rest => exact hmore d rest hc rfl

theorem stringEnd?_cut {quote : Char} (h : stringEnd? quote (x ++ z) = some (y ++ z)) : stringEnd? quote x = some y := by
  have never : ∀ {cs : List Char}, cs.length ≤ z.length → stringEnd? quote cs ≠ some (y ++ z) := fun hcs he => by
    have := length_of_stringEnd? he
    simp only [List.length_append] at this
    omega
  fun_induction stringEnd? quote x with
  | case1 => exact absurd h (never (Nat.le_refl _))
  | case2 =>
    cases z with
    | nil => cases h
    | cons c z =>
      rw [List.cons_append, List.nil_append, stringEnd?_escape] at h
      exact absurd h (never (Nat.le_succ _))
  | case3 c r ih => exact ih h
  | case4 r hone hmore =>
    rw [List.cons_append, stringEnd?_plain quote (ne_backslash hone hmore), if_pos rfl] at h
    rw [List.append_cancel_right (Option.some.inj h)]
  | case5 c r hone hmore hq ih =>
    rw [List.cons_append, stringEnd?_plain quote (ne_backslash hone hmore), if_neg hq] at h
    exact ih h

theorem stringEnd?_append {quote : Char} (h : stringEnd? quote cs = some rest) (z : List Char) :
    stringEnd? quote (cs ++ z) = some (rest ++ z) := by
  fun_induction stringEnd? quote cs with
  | case1 => cases h
  | case2 => cases h
  | case3 c r ih => exact ih h
  | case4 r hone hmore =>
    cases h
    rw [List.cons_append, stringEnd?_plain quote (ne_backslash hone hmore), if_pos rfl]
  | case5 c r hone hmore hq ih =>
    rw [List.cons_append, stringEnd?_plain quote (ne_backslash hone hmore), if_neg hq]
    exact ih h

theorem suffix_blockEnd? (h : blockEnd? cs = some rest) : rest <:+ cs := by
  fun_induction blockEnd? cs with
  | case1 => cases h
  | case2 r => cases h; exact ⟨['*', '/'], rfl⟩
  | case3 c r _ ih => exact (ih h).trans (List.suffix_cons _ _)

theorem blockEnd?_cut (h : blockEnd? (x ++ z) = some (y ++ z)) : blockEnd? x = some y := by
  have never : ∀ {cs : List Char}, cs.length ≤ z.length → blockEnd? cs ≠ some (y ++ z) := fun hcs he => by
    have := length_of_blockEnd? he
    simp only [List.length_append] at this
    omega
  induction x with
  | nil => exact absurd h (never (Nat.le_refl _))
  | cons c x ih =>
    cases x with
    | nil =>
      -- The sign could be completed by what follows, but then nothing of the first part would be left.
      cases z with
      | nil => simp [blockEnd?] at h
      | cons d z =>
        by_cases hcd : c = '*' ∧ d = '/'
        · obtain ⟨rfl, rfl⟩ := hcd
          have : z = y ++ '/' :: z := Option.some.inj h
          exact absurd this (ne_append_of_length_lt (by simp))
        · rw [List.cons_append, List.nil_append, blockEnd?] at h
          · exact absurd h (never (Nat.le_refl _))
          · intro r hc hd; cases hd; exact hcd ⟨hc, rfl⟩
    | cons d x =>
      by_cases hcd : c = '*' ∧ d = '/'
      · obtain ⟨rfl, rfl⟩ := hcd
        have : x ++ z = y ++ z := Option.some.inj h
        rw [← List.append_cancel_right this]
        rfl
      · have hne : ∀ r : List Char, blockEnd? (c :: d :: r) = blockEnd? (d :: r) := fun r => by
          rw [blockEnd?]
          intro r hc hd; cases hd; exact hcd ⟨hc, rfl⟩
        rw [hne]
        rw [List.cons_append, List.cons_append, hne] at h
        exact ih h

theorem blockEnd?_append (h : blockEnd? cs = some rest) (z : List Char) : blockEnd? (cs ++ z) = some (rest ++ z) := by
  fun_induction blockEnd? cs with
  | case1 => cases h
  | case2 r => cases h; rfl
  | case3 c r hstart ih =>
    rw [List.cons_append, blockEnd?]
    · exact ih h
    · -- The mark is not completed by what follows: something is left to end the comment.
      intro more hc hr
      cases r with
      | nil => cases h
      | cons d r => cases hr; exact hstart r hc rfl

/-- A comment behind which something is left of a text ends there whatever follows. -/
theorem comment_cut (h : comment after (x ++ z) = .closed (y ++ z)) (hy : y ≠ []) : comment none x = .closed y := by
  cases x with
  | nil => exact absurd (length_of_comment h) (length_lt_of_append hy)
  | cons c x =>
    unfold comment at h ⊢
    simp only [List.cons_append, List.head?_cons, Option.some_or, List.tail_cons] at h ⊢
    split at h
    next heq =>
      cases heq
      have hr : ('/' :: x ++ z).dropWhile (· != '\n') = y ++ z := Comment.closed.inj h
      exact congrArg Comment.closed ((local_dropWhile _).cut hr)
    next heq =>
      cases heq
      cases hb : blockEnd? (x ++ z) with
      | none => rw [hb] at h; cases h
      | some r =>
        rw [hb] at h
        cases h
        simp only [blockEnd?_cut hb]
    next => cases h

/-- A slash that starts no comment starts none in a text that is cut behind it. -/
theorem comment_none_cut (h : comment after (x ++ z) = .none) : comment none x = .none := by
  cases x with
  | nil => rfl
  | cons c x =>
    unfold comment at h ⊢
    simp only [List.cons_append, List.head?_cons, Option.some_or, List.tail_cons] at h ⊢
    split at h
    next => cases h
    next =>
      split at h
      next => cases h
      next => cases h
    next hs hb => rfl

theorem suffix_comment (h : comment after cs = .closed rest) : rest <:+ cs := by
  unfold comment at h
  split at h
  · cases h; exact List.dropWhile_suffix _
  · split at h
    next hb => cases h; exact (suffix_blockEnd? hb).trans (List.tail_suffix cs)
    next => cases h
  · cases h

/-! ## Blanks and comments -/

theorem trivia_eq (h : trivia after pos cs = .ok (pos', rest)) :
    ∃ gap, cs = gap ++ rest ∧ pos' = pos + Text.byteLength gap := by
  fun_induction trivia after pos cs with
  | case1 => cases h; exact ⟨[], rfl, rfl⟩
  | case2 pos c r _ ih =>
    obtain ⟨gap, rfl, rfl⟩ := ih h
    exact ⟨c :: gap, rfl, by simp; omega⟩
  | case3 => cases h; exact ⟨[], rfl, rfl⟩
  | case4 => cases h
  | case5 pos r rest' hc _ ih =>
    obtain ⟨gap, rfl, rfl⟩ := ih h
    obtain ⟨used, rfl⟩ := suffix_comment hc
    refine ⟨'/' :: used ++ gap, by simp, ?_⟩
    simp [bytesUpTo]; omega
  | case6 => cases h; exact ⟨[], rfl, rfl⟩

theorem trivia_of_comment_none (h : comment after cs = .none) (pos : Nat) :
    trivia after pos ('/' :: cs) = .ok (pos, '/' :: cs) := by
  rw [trivia, if_neg (by decide), if_pos rfl]
  split
  next => rfl
  next heq => rw [h] at heq; cases heq
  next heq => rw [h] at heq; cases heq

theorem trivia_of_comment (h : comment after cs = .closed rest) (pos : Nat) :
    trivia after pos ('/' :: cs) = trivia after (pos + bytesUpTo ('/' :: cs) rest) rest := by
  rw [trivia, if_neg (by decide), if_pos rfl]
  split
  next heq => rw [h] at heq; cases heq
  next heq => rw [h] at heq; cases heq
  next heq => rw [h] at heq; cases heq; rfl

theorem trivia_trivia (h : trivia after pos cs = .ok (pos', rest)) : trivia after pos' rest = .ok (pos', rest) := by
  fun_induction trivia after pos cs with
  | case1 => cases h; rw [trivia]
  | case2 pos c r _ ih => exact ih h
  | case3 pos r hc _ =>
    cases h
    exact trivia_of_comment_none hc _
  | case4 => cases h
  | case5 pos r rest' hc _ ih => exact ih h
  | case6 pos c r hb hs => cases h; rw [trivia, if_neg hb, if_neg hs]

theorem trivia_cut (h : trivia after pos (x ++ z) = .ok (pos', y ++ z))
    (hy : y ≠ []) (start : Nat) : ∃ stop, trivia none start x = .ok (stop, y) := by
  generalize hcs : x ++ z = cs at h
  generalize hr : y ++ z = rest at h
  fun_induction trivia after pos cs generalizing x start with
  | case1 =>
    cases h
    exact absurd (List.append_eq_nil_iff.mp hr).1 hy
  | case2 pos c r hb ih =>
    obtain ⟨x, rfl, rfl⟩ := exists_cons_of_append hcs (Nat.le_succ_of_le (length_of_trivia h)) hr hy
    obtain ⟨stop, hs⟩ := ih (start + c.utf8Size) rfl h
    exact ⟨stop, by rw [trivia, if_pos hb]; exact hs⟩
  | case3 pos r hc =>
    cases h
    obtain ⟨x, rfl, rfl⟩ := exists_cons_of_append hcs (Nat.le_refl _) hr hy
    cases List.append_cancel_right (hr.trans rfl : y ++ z = ('/' :: x) ++ z)
    exact ⟨start, trivia_of_comment_none (comment_none_cut hc) start⟩
  | case4 => cases h
  | case5 pos r rest' hc _ ih =>
    have hle := Nat.le_trans (length_of_trivia h) (length_of_comment hc)
    obtain ⟨x, rfl, rfl⟩ := exists_cons_of_append hcs (Nat.le_succ_of_le hle) hr hy
    obtain ⟨gap, rfl, -⟩ := trivia_eq h
    obtain ⟨w, hw, -⟩ := exists_of_suffix_append (suffix_comment hc)
      ((List.suffix_append y z).trans (hr ▸ List.suffix_append gap rest))
    rw [hw] at hc
    have hwne : w ≠ [] := by
      rintro rfl
      exact absurd (congrArg List.length hw) (by subst hr; have := List.length_pos_iff.mpr hy; simp; omega)
    obtain ⟨stop, hs⟩ := ih (start + bytesUpTo ('/' :: x) w) hw.symm h
    exact ⟨stop, (trivia_of_comment (comment_cut hc hwne) start).trans hs⟩
  | case6 pos c r hb hs =>
    cases h
    obtain ⟨x, rfl, rfl⟩ := exists_cons_of_append hcs (Nat.le_refl _) hr hy
    cases List.append_cancel_right (hr.trans rfl : y ++ z = (c :: x) ++ z)
    exact ⟨start, by rw [trivia, if_neg hb, if_neg hs]⟩

/-! ## Groups -/

theorem suffix_commentAt (h : commentAt after c cs = .closed rest) : rest <:+ cs := by
  unfold commentAt at h
  split at h
  · exact suffix_comment h
  · cases h

section GroupSteps

variable {first : Opened} {nested : List Opened}

theorem groupEnd_of_string (hq : isQuote c = true) (h : stringEnd? c cs = some rest) :
    groupEnd after first nested pos (c :: cs) = groupEnd after first nested (pos + bytesUpTo (c :: cs) rest) rest := by
  rw [groupEnd, if_pos hq]
  split
  next heq => rw [h] at heq; cases heq
  next heq => rw [h] at heq; cases heq; rfl

theorem groupEnd_of_comment (hq : ¬ isQuote c = true) (h : commentAt after c cs = .closed rest) :
    groupEnd after first nested pos (c :: cs) = groupEnd after first nested (pos + bytesUpTo (c :: cs) rest) rest := by
  rw [groupEnd, if_neg hq]
  split
  next heq => rw [h] at heq; cases heq
  next heq => rw [h] at heq; cases heq; rfl
  next heq => rw [h] at heq; cases heq

theorem groupEnd_of_closed (hq : ¬ isQuote c = true) (h : commentAt after c cs = .none)
    (hb : bracketsBehind first nested pos c = .ok none) : groupEnd after first nested pos (c :: cs) = .ok (pos, cs) := by
  rw [groupEnd, if_neg hq]
  split
  next heq => rw [h] at heq; cases heq
  next heq => rw [h] at heq; cases heq
  next => simp only [hb]

theorem groupEnd_of_open {more : List Opened} (hq : ¬ isQuote c = true) (h : commentAt after c cs = .none)
    (hb : bracketsBehind first nested pos c = .ok (some more)) :
    groupEnd after first nested pos (c :: cs) = groupEnd after first more (pos + c.utf8Size) cs := by
  rw [groupEnd, if_neg hq]
  split
  next heq => rw [h] at heq; cases heq
  next heq => rw [h] at heq; cases heq
  next => simp only [hb]

end GroupSteps

/-! ## Symbols -/

theorem eq_of_dropText? {text : List Char} (h : dropText? text cs = some rest) : cs = text ++ rest := by
  fun_induction dropText? text cs with
  | case1 => cases h; rfl
  | case2 => cases h
  | case3 text c cs ih => rw [ih h]; rfl
  | case4 => cases h

theorem eq_of_symbol? {kind : TokenKind} (h : symbol? cs = some (kind, rest)) :
    ∃ text, (text, kind) ∈ symbols ∧ cs = text.toList ++ rest ∧
      (kind = .safeDot → startsWith Char.isDigit rest = false) := by
  obtain ⟨⟨text, k⟩, hmem, hs⟩ := List.exists_of_findSome?_eq_some h
  dsimp only at hs
  split at hs
  next => cases hs
  next r hr =>
    split at hs
    next => cases hs
    next hdigit =>
      cases hs
      exact ⟨text, hmem, eq_of_dropText? hr, fun hk => by simpa [hk] using hdigit⟩

theorem symbol?_dot (cs : List Char) : symbol? ('.' :: cs) = some (.dot, cs) := rfl

theorem symbol?_safeDot (h : startsWith Char.isDigit cs = false) : symbol? ('?' :: '.' :: cs) = some (.safeDot, cs) := by
  simp [symbol?, symbols, dropText?, h]

end Scan

/-- The kinds of tokens that paths are made of. -/
def TokenKind.isPathPart : TokenKind → Bool
  | ident | number | str | dot | safeDot | group _ => true
  | _ => false

namespace Scan

/-! ## Tokens -/

variable {x y z cs rest : List Char}

theorem isPoint_of_mem_symbols : ∀ e ∈ symbols, e.2.isPathPart = true → e = (".", .dot) ∨ e = ("?.", .safeDot) := by
  decide

/-- A point, null-safe or not, is one whatever follows. -/
theorem symbol?_cut {kind : TokenKind} (hk : kind.isPathPart = true)
    (h : symbol? (x ++ z) = some (kind, y ++ z)) : symbol? x = some (kind, y) := by
  obtain ⟨text, hmem, hx, hdigit⟩ := eq_of_symbol? h
  rw [← List.append_assoc] at hx
  rw [List.append_cancel_right hx]
  rcases isPoint_of_mem_symbols _ hmem hk with heq | heq
  · cases heq
    exact symbol?_dot y
  · cases heq
    exact symbol?_safeDot (startsWith_of_append (hdigit rfl))

theorem eq_opener_of_ofOpener? {c : Char} {d : Delim} (h : Delim.ofOpener? c = some d) : c = d.opener := by
  have := List.find?_some h
  simpa using (beq_iff_eq.mp this).symm

/-- The tokens there are, and the faults in place of one, by what they start with. -/
inductive TokenAt (after : Option Char) (pos : Nat) :
    List Char → Except Located (TokenKind × List Char) → Prop where
  | eof : TokenAt after pos [] (.ok (.eof, []))
  | name {c : Char} {cs : List Char} (start : isNameStart c = true) :
      TokenAt after pos (c :: cs) (.ok (.ident, (c :: cs).dropWhile isNameChar))
  | number {c : Char} {cs rest : List Char} (start : startsNumber c cs = true) (ends : number (c :: cs) = .ok rest) :
      TokenAt after pos (c :: cs) (.ok (.number, rest))
  | malformed {c : Char} {cs : List Char} {fault : CompileFault} (start : startsNumber c cs = true)
      (fails : Scan.number (c :: cs) = .error fault) : TokenAt after pos (c :: cs) (.error ⟨fault, pos⟩)
  | string {quote : Char} {cs rest : List Char} (isQuote : isQuote quote = true)
      (ends : stringEnd? quote cs = some rest) : TokenAt after pos (quote :: cs) (.ok (.str, rest))
  | openString {quote : Char} {cs : List Char} (isQuote : Scan.isQuote quote = true)
      (fails : stringEnd? quote cs = none) : TokenAt after pos (quote :: cs) (.error ⟨.unterminatedString, pos⟩)
  | group {d : Delim} {cs rest : List Char} {stop : Nat}
      (ends : groupEnd after ⟨d, pos⟩ [] (pos + d.opener.utf8Size) cs = .ok (stop, rest)) :
      TokenAt after pos (d.opener :: cs) (.ok (.group d, rest))
  | openGroup {d : Delim} {cs : List Char} {e : Located}
      (fails : groupEnd after ⟨d, pos⟩ [] (pos + d.opener.utf8Size) cs = .error e) :
      TokenAt after pos (d.opener :: cs) (.error e)
  | closer {c : Char} {cs : List Char} (isCloser : Delim.isCloser c = true) :
      TokenAt after pos (c :: cs) (.error ⟨.unexpectedCloser c, pos⟩)
  | symbol {text : String} {kind : TokenKind} {rest : List Char} (mem : (text, kind) ∈ symbols) :
      TokenAt after pos (text.toList ++ rest) (.ok (kind, rest))
  | other {c : Char} {cs : List Char} : TokenAt after pos (c :: cs) (.error ⟨.unexpectedCharacter c, pos⟩)

theorem tokenAt (after : Option Char) (pos : Nat) (cs : List Char) : TokenAt after pos cs (token after pos cs) := by
  unfold token
  split
  next => exact .eof
  next c r =>
    split
    next hname => exact .name hname
    split
    next hnumber =>
      split
      next hn => exact .number hnumber hn
      next hn => exact .malformed hnumber hn
    split
    next hquote =>
      split
      next hs => exact .string hquote hs
      next hs => exact .openString hquote hs
    split
    next d hd =>
      obtain rfl := eq_opener_of_ofOpener? hd
      cases hg : groupEnd after ⟨d, pos⟩ [] (pos + d.opener.utf8Size) r with
      | error e => exact .openGroup hg
      | ok found => exact .group hg
    split
    next hcloser => exact .closer hcloser
    split
    next found hs =>
      obtain ⟨kind, rest⟩ := found
      obtain ⟨text, hmem, heq, -⟩ := eq_of_symbol? hs
      rw [heq]
      exact .symbol hmem
    next => exact .other

theorem tokenAt_of_eq {after : Option Char} {pos : Nat} {found : Except Located (TokenKind × List Char)}
    (h : token after pos cs = found) : TokenAt after pos cs found := h ▸ tokenAt after pos cs

end Scan

end PathScript
