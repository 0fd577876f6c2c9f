import PathScript.Proofs.Reached

/-! # Strings and their escapes

The grammar is given here as relations, with the digits of a code by their
values. Reading a literal follows it but for one thing: the four digits behind
`\u` may be a plus sign and three digits. -/

namespace PathScript.Literal

/-! ## The grammar -/

/-- The letters of escapes, and what they stand for. -/
def letters : List (Char × Char) :=
  [('n', '\n'), ('t', '\t'), ('r', '\r'), ('b', '\x08'), ('f', '\x0c'), ('0', '\x00'), ('\\', '\\'), ('\'', '\''),
    ('"', '"')]

/-- The hexadecimal digits and their values. -/
def hexDigits : List (Char × Nat) := "0123456789abcdef".toList.zipIdx ++ "ABCDEF".toList.zipIdx 10

/-- What may follow a backslash, and the character it stands for: a letter, or `u` and four digits that are the code of
a character. -/
inductive Escape : List Char → Char → Prop where
  | letter {e c : Char} (mem : (e, c) ∈ letters) : Escape [e] c
  | unicode {w x y z : Char} {i j k l : Nat} {c : Char} (hw : (w, i) ∈ hexDigits) (hx : (x, j) ∈ hexDigits)
      (hy : (y, k) ∈ hexDigits) (hz : (z, l) ∈ hexDigits) (code : c.toNat = 4096 * i + 256 * j + 16 * k + l) :
      Escape ['u', w, x, y, z] c

/-- The form that the grammar does not have: `u`, a plus sign and three digits. -/
inductive Signed : List Char → Char → Prop where
  | intro {x y z : Char} {j k l : Nat} {c : Char} (hx : (x, j) ∈ hexDigits) (hy : (y, k) ∈ hexDigits)
      (hz : (z, l) ∈ hexDigits) (code : c.toNat = 256 * j + 16 * k + l) : Signed ['u', '+', x, y, z] c

/-- What is taken behind a backslash. -/
def Accepted (e : List Char) (c : Char) : Prop := Escape e c ∨ Signed e c

/-- A body and the text it stands for, by some escapes. -/
inductive Decodes (escape : List Char → Char → Prop) : List Char → List Char → Prop where
  | nil : Decodes escape [] []
  | plain {c : Char} {body text : List Char} (noEscape : c ≠ '\\') (more : Decodes escape body text) :
      Decodes escape (c :: body) (c :: text)
  | escape {e : List Char} {c : Char} {body text : List Char} (stands : escape e c) (more : Decodes escape body text) :
      Decodes escape ('\\' :: (e ++ body)) (c :: text)

/-- A body in which, behind some that follows the grammar, there is a plus sign in place of a digit. -/
def HasSigned (body : List Char) : Prop :=
  ∃ before text e c rest, Decodes Escape before text ∧ Signed e c ∧ body = before ++ '\\' :: (e ++ rest)

variable {c : Char} {n m : Nat} {cs body text digits : List Char} {quote : Char}

theorem HasSigned.mem (h : HasSigned body) : '+' ∈ body := by
  obtain ⟨before, text, e, c, rest, -, hs, rfl⟩ := h
  cases hs with
  | intro => simp

/-! ## Digits and codes -/

theorem mem_hexDigits_iff : (c, n) ∈ hexDigits ↔ Number.digitValue? 16 c = some n := by
  constructor
  · have hall : ∀ d ∈ hexDigits, Number.digitValue? 16 d.1 = some d.2 := by decide
    exact hall (c, n)
  · intro h
    have hascii : c.toNat < 128 := by
      refine Nat.lt_of_not_le fun hge => ?_
      have hbeyond : ∀ hi : Char, hi.toNat < 128 → (c ≤ hi) = False := fun hi hhi => by
        simp only [Char.le_def, UInt32.le_iff_toNat_le, Char.toNat_val, eq_iff_iff, iff_false]
        omega
      simp [Number.digitValue?, hbeyond '9' (by decide), hbeyond 'f' (by decide), hbeyond 'F' (by decide)] at h
    have hall : ∀ m < 128, ∀ n ∈ Number.digitValue? 16 (Char.ofNat m), (Char.ofNat m, n) ∈ hexDigits := by
      decide +kernel
    have := hall c.toNat hascii
    rw [Char.ofNat_toNat] at this
    exact this n h

theorem utf8Size_of_mem_hexDigits : ∀ d ∈ hexDigits, d.1.utf8Size = 1 ∧ d.1 ≠ '+' := by decide

theorem charOfCode?_eq_some : charOfCode? n = some c ↔ c.toNat = n := by
  unfold charOfCode?
  split
  next h =>
    constructor
    · intro heq
      cases heq
      rw [Char.ofNat, dif_pos h]
      rfl
    · rintro rfl
      rw [Char.ofNat_toNat]
  next h =>
    refine ⟨nofun, ?_⟩
    rintro rfl
    exact absurd c.valid h

theorem mem_letters_iff {e : Char} : (e, c) ∈ letters ↔ escaped? e = some c := by
  constructor
  · have hall : ∀ d ∈ letters, escaped? d.1 = some d.2 := by decide
    exact hall (e, c)
  · intro h
    unfold escaped? at h
    split at h <;> cases h <;> decide

theorem appendDigits_cons : Number.appendDigits 16 n (c :: cs) = some m ↔
    ∃ d, (c, d) ∈ hexDigits ∧ Number.appendDigits 16 (16 * n + d) cs = some m := by
  simp only [Number.appendDigits, Option.bind_eq_some_iff, mem_hexDigits_iff]

theorem byteLength_of_appendDigits (h : Number.appendDigits 16 n cs = some m) : Text.byteLength cs = cs.length := by
  induction cs generalizing n with
  | nil => rfl
  | cons c cs ih =>
    obtain ⟨d, hd, hcs⟩ := appendDigits_cons.mp h
    rw [Text.byteLength_cons, (utf8Size_of_mem_hexDigits _ hd).1, ih hcs, List.length_cons, Nat.add_comm]

theorem exists_three (h : Number.appendDigits 16 n cs = some m)
    (hlen : Text.byteLength cs = 3) : ∃ x y z, cs = [x, y, z] := by
  rw [byteLength_of_appendDigits h] at hlen
  rcases cs with _ | ⟨x, _ | ⟨y, _ | ⟨z, _ | ⟨w, cs⟩⟩⟩⟩ <;> cases hlen
  exact ⟨x, y, z, rfl⟩

theorem appendDigits_three {x y z : Char} : Number.appendDigits 16 n [x, y, z] = some m ↔
    ∃ j k l, (x, j) ∈ hexDigits ∧ (y, k) ∈ hexDigits ∧ (z, l) ∈ hexDigits ∧ m = 4096 * n + 256 * j + 16 * k + l := by
  simp only [appendDigits_cons]
  constructor
  · rintro ⟨j, hx, k, hy, l, hz, hm⟩
    cases hm
    exact ⟨j, k, l, hx, hy, hz, by omega⟩
  · rintro ⟨j, k, l, hx, hy, hz, rfl⟩
    exact ⟨j, hx, k, hy, l, hz, congrArg some (by omega)⟩

theorem unicode?_signed {x y z : Char} (hlen : Text.byteLength [x, y, z] = 3) :
    unicode? ['+', x, y, z] = (Number.appendDigits 16 0 [x, y, z]).bind charOfCode? := by
  have hplus : ('+' : Char).utf8Size = 1 := rfl
  rw [unicode?, if_pos (by rw [Text.byteLength_cons, hlen, hplus])]
  rfl

theorem unicode?_plain {w : Char} (hw : w ≠ '+') (hlen : Text.byteLength (w :: cs) = 4) :
    unicode? (w :: cs) = (Number.appendDigits 16 0 (w :: cs)).bind charOfCode? := by
  rw [unicode?, if_pos hlen]
  · rfl
  · intro rest heq
    exact hw (List.cons.inj heq).1

theorem accepted_of_unicode? (h : unicode? digits = some c) : Accepted ('u' :: digits) c := by
  have hlen : Text.byteLength digits = 4 := by
    unfold unicode? at h
    split at h
    next hlen => exact hlen
    next => cases h
  cases digits with
  | nil => cases hlen
  | cons w cs =>
    by_cases hplus : w = '+'
    · subst hplus
      obtain ⟨n, hn, hc⟩ : ∃ n, Number.readNat? 16 cs = some n ∧ charOfCode? n = some c := by
        rw [unicode?, if_pos hlen] at h
        exact Option.bind_eq_some_iff.mp h
      have hn : Number.appendDigits 16 0 cs = some n := by
        cases cs with
        | nil => cases hlen
        | cons => exact hn
      have hplus : ('+' : Char).utf8Size = 1 := rfl
      rw [Text.byteLength_cons, hplus] at hlen
      obtain ⟨x, y, z, rfl⟩ := exists_three hn (by omega)
      obtain ⟨j, k, l, hx, hy, hz, rfl⟩ := appendDigits_three.mp hn
      exact .inr ⟨hx, hy, hz, by rw [charOfCode?_eq_some.mp hc]; omega⟩
    · rw [unicode?_plain hplus hlen] at h
      obtain ⟨n, hn, hc⟩ := Option.bind_eq_some_iff.mp h
      obtain ⟨i, hw, hn⟩ := appendDigits_cons.mp hn
      rw [Text.byteLength_cons, (utf8Size_of_mem_hexDigits _ hw).1] at hlen
      obtain ⟨x, y, z, rfl⟩ := exists_three hn (by omega)
      obtain ⟨j, k, l, hx, hy, hz, rfl⟩ := appendDigits_three.mp hn
      exact .inl (.unicode hw hx hy hz (by rw [charOfCode?_eq_some.mp hc]; omega))

/-- Digits that are the code of a character, as four or as three behind a plus sign. -/
theorem unicode?_of_accepted (h : Accepted ('u' :: digits) c) : unicode? digits = some c ∧ digits.length = 4 := by
  have hbytes : ∀ {x y z : Char} {j k l : Nat}, (x, j) ∈ hexDigits → (y, k) ∈ hexDigits → (z, l) ∈ hexDigits →
      Text.byteLength [x, y, z] = 3 := fun hx hy hz => by
    simp [utf8Size_of_mem_hexDigits _ hx, utf8Size_of_mem_hexDigits _ hy, utf8Size_of_mem_hexDigits _ hz]
  rcases h with h | h
  · cases h with
    | letter mem => exact absurd (mem_letters_iff.mp mem) nofun
    | unicode hw hx hy hz code =>
      obtain ⟨hone, hsign⟩ := utf8Size_of_mem_hexDigits _ hw
      refine ⟨?_, rfl⟩
      rw [unicode?_plain hsign (by rw [Text.byteLength_cons, hone, hbytes hx hy hz]),
        appendDigits_cons.mpr ⟨_, hw, appendDigits_three.mpr ⟨_, _, _, hx, hy, hz, rfl⟩⟩, Option.bind_some,
        charOfCode?_eq_some]
      omega
  · cases h with
    | intro hx hy hz code =>
      refine ⟨?_, rfl⟩
      rw [unicode?_signed (hbytes hx hy hz), appendDigits_three.mpr ⟨_, _, _, hx, hy, hz, rfl⟩, Option.bind_some,
        charOfCode?_eq_some]
      omega

/-! ## Reading -/

theorem unescape_plain (hc : c ≠ '\\') (offset : Nat) (cs : List Char) :
    unescape offset (c :: cs) = (unescape (offset + c.utf8Size) cs).map (c :: ·) := by
  rw [unescape]
  exact hc

theorem unescape_letter {e : Char} (h : (e, c) ∈ letters) (offset : Nat) (cs : List Char) :
    unescape offset ('\\' :: e :: cs) = (unescape (offset + 1 + e.utf8Size) cs).map (c :: ·) := by
  have hletter := mem_letters_iff.mp h
  rw [unescape, hletter]
  rintro rfl
  cases hletter

theorem unescape_unicode (h : Accepted ('u' :: digits) c) (offset : Nat)
    (cs : List Char) : unescape offset ('\\' :: 'u' :: (digits ++ cs)) =
      (unescape (offset + 2 + Text.byteLength digits) cs).map (c :: ·) := by
  obtain ⟨hunicode, hlen⟩ := unicode?_of_accepted h
  have htake : (digits ++ cs).take 4 = digits := by rw [← hlen, List.take_left]
  have hdrop : (digits ++ cs).drop 4 = cs := by rw [← hlen, List.drop_left]
  rw [unescape, htake, hdrop, hunicode]

theorem unescape_escape {e : List Char} (h : Accepted e c) (offset : Nat) (cs : List Char) :
    ∃ offset', unescape offset ('\\' :: (e ++ cs)) = (unescape offset' cs).map (c :: ·) := by
  rcases h with h | h
  · cases h with
    | letter mem => exact ⟨_, unescape_letter mem offset cs⟩
    | unicode hw hx hy hz code => exact ⟨_, unescape_unicode (.inl (.unicode hw hx hy hz code)) offset cs⟩
  · cases h with
    | intro hx hy hz code => exact ⟨_, unescape_unicode (.inr ⟨hx, hy, hz, code⟩) offset cs⟩

theorem exists_of_map_cons {found : Except Located (List Char)}
    (h : found.map (c :: ·) = .ok text) : ∃ more, found = .ok more ∧ text = c :: more := by
  cases found with
  | error e => cases h
  | ok more => cases h; exact ⟨more, rfl, rfl⟩

theorem decodes_of_unescape {offset : Nat} (h : unescape offset body = .ok text) : Decodes Accepted body text := by
  fun_induction unescape offset body generalizing text with
  | case1 => cases h; exact .nil
  | case2 => cases h
  | case3 => cases h
  | case4 offset rest c hc ih =>
    obtain ⟨more, hmore, rfl⟩ := exists_of_map_cons h
    have hsplit : '\\' :: 'u' :: rest = '\\' :: ('u' :: rest.take 4 ++ rest.drop 4) := by
      rw [List.cons_append, List.take_append_drop]
    rw [hsplit]
    exact .escape (accepted_of_unicode? hc) (ih hmore)
  | case5 => cases h
  | case6 offset e rest _ c hc ih =>
    obtain ⟨more, hmore, rfl⟩ := exists_of_map_cons h
    have hescape : Accepted [e] c := .inl (.letter (mem_letters_iff.mpr hc))
    exact .escape hescape (ih hmore)
  | case7 offset c rest hc ih =>
    obtain ⟨more, hmore, rfl⟩ := exists_of_map_cons h
    exact .plain hc (ih hmore)

theorem unescape_of_decodes (h : Decodes Accepted body text) (offset : Nat) : unescape offset body = .ok text := by
  induction h generalizing offset with
  | nil => rw [unescape]
  | plain hc _ ih =>
    rw [unescape_plain hc, ih]
    rfl
  | escape he _ ih =>
    obtain ⟨offset', heq⟩ := unescape_escape he offset _
    rw [heq, ih]
    rfl

/-- Reading takes the grammar, with the form that it does not have. -/
theorem unescape_eq_ok_iff {offset : Nat} : unescape offset body = .ok text ↔ Decodes Accepted body text :=
  ⟨decodes_of_unescape, fun h => unescape_of_decodes h offset⟩

namespace Decodes

theorem accepted (h : Decodes Escape body text) : Decodes Accepted body text := by
  induction h with
  | nil => exact .nil
  | plain hc _ ih => exact .plain hc ih
  | escape he _ ih => exact .escape (.inl he) ih

/-- Without a plus sign in place of a digit what is read follows the grammar. -/
theorem of_accepted (h : Decodes Accepted body text) (hsigned : ¬ HasSigned body) : Decodes Escape body text := by
  induction h with
  | nil => exact .nil
  | plain hc _ ih =>
    refine .plain hc (ih ?_)
    rintro ⟨before, text, e, c, rest, hbefore, hs, rfl⟩
    exact hsigned ⟨_, _, e, c, rest, .plain hc hbefore, hs, rfl⟩
  | @escape e c body text he _ ih =>
    rcases he with he | hs
    · refine .escape he (ih ?_)
      rintro ⟨before, text, e', c', rest, hbefore, hs, rfl⟩
      exact hsigned ⟨_, _, e', c', rest, .escape he hbefore, hs, by simp⟩
    · exact absurd ⟨[], [], e, c, body, .nil, hs, rfl⟩ hsigned

end Decodes

/-! ## Writing -/

/-- A control character. -/
def isControl (c : Char) : Bool := decide (c.toNat < 0x20) || (decide (0x7f ≤ c.toNat) && decide (c.toNat < 0xa0))

/-- A text and a body that it can be written as between quotes of some kind: a character other than the quote and the
backslash as it is, any character by an escape. -/
inductive Writes (quote : Char) : List Char → List Char → Prop where
  | nil : Writes quote [] []
  | plain {c : Char} {text body : List Char} (noQuote : c ≠ quote) (noEscape : c ≠ '\\')
      (more : Writes quote text body) : Writes quote (c :: text) (c :: body)
  | escape {e : List Char} {c : Char} {text body : List Char} (stands : Escape e c) (more : Writes quote text body) :
      Writes quote (c :: text) ('\\' :: (e ++ body))

/-- The digit with a value. -/
def hexDigit (n : Nat) : Char := "0123456789abcdef".toList.getD n '0'

/-- A character between quotes of some kind, with the quote, the backslash and control characters escaped. -/
def writeChar (quote c : Char) : List Char :=
  if c = quote || c = '\\' then ['\\', c]
  else if isControl c then
    let n := c.toNat
    ['\\', 'u', hexDigit (n / 4096), hexDigit (n / 256 % 16), hexDigit (n / 16 % 16), hexDigit (n % 16)]
  else [c]

/-- A text between quotes of some kind. -/
def write (quote : Char) (text : List Char) : List Char := text.flatMap (writeChar quote)

theorem mem_hexDigits_hexDigit : ∀ n < 16, (hexDigit n, n) ∈ hexDigits := by decide

theorem plain_of_mem_hexDigits : ∀ d ∈ hexDigits, d.1 ≠ '\\' ∧ Scan.isQuote d.1 = false := by decide

theorem escape_of_isControl (h : isControl c = true) :
    Escape ['u', hexDigit (c.toNat / 4096), hexDigit (c.toNat / 256 % 16), hexDigit (c.toNat / 16 % 16),
      hexDigit (c.toNat % 16)] c := by
  have hlt : c.toNat < 0xa0 := by
    simp only [isControl, Bool.or_eq_true, Bool.and_eq_true, decide_eq_true_eq] at h
    omega
  refine .unicode (mem_hexDigits_hexDigit _ ?_) (mem_hexDigits_hexDigit _ ?_) (mem_hexDigits_hexDigit _ ?_)
    (mem_hexDigits_hexDigit _ ?_) ?_ <;> omega

theorem writes_write (hq : Scan.isQuote quote = true) (text : List Char) : Writes quote text (write quote text) := by
  induction text with
  | nil => exact .nil
  | cons c text ih =>
    rw [write, List.flatMap_cons, ← write]
    unfold writeChar
    split
    next hc =>
      have hletter : (c, c) ∈ letters := by
        simp only [Scan.isQuote, Bool.or_eq_true, decide_eq_true_eq] at hq hc
        rcases hc with rfl | rfl
        · rcases hq with rfl | rfl <;> decide
        · decide
      exact .escape (.letter hletter) ih
    next hc =>
      split
      next hcontrol => exact .escape (escape_of_isControl hcontrol) ih
      next =>
        simp only [Bool.or_eq_true, decide_eq_true_eq, not_or] at hc
        exact .plain hc.1 hc.2 ih

theorem not_isControl_of_mem_write (hq : Scan.isQuote quote = true) (text : List Char) :
    ∀ c ∈ write quote text, isControl c = false := by
  intro c hc
  obtain ⟨d, -, hd⟩ := List.mem_flatMap.mp hc
  unfold writeChar at hd
  split at hd
  next hquote =>
    simp only [Scan.isQuote, Bool.or_eq_true, decide_eq_true_eq] at hq hquote
    have hd' : d ∈ ['"', '\'', '\\'] := by
      rcases hquote with rfl | rfl
      · rcases hq with rfl | rfl <;> decide
      · decide
    have hmem : c ∈ ['"', '\'', '\\'] := by
      rcases List.mem_cons.mp hd with rfl | hd
      · decide
      · exact List.mem_singleton.mp hd ▸ hd'
    have hall : ['"', '\'', '\\'].any isControl = false := by decide
    exact Bool.eq_false_iff.mpr (List.any_eq_false.mp hall c hmem)
  next =>
    split at hd
    next hcontrol =>
      have hdigits : ∀ n < 16, isControl (hexDigit n) = false := by decide
      have hlt : d.toNat < 0xa0 := by
        simp only [isControl, Bool.or_eq_true, Bool.and_eq_true, decide_eq_true_eq] at hcontrol
        omega
      simp only [List.mem_cons, List.not_mem_nil, or_false] at hd
      rcases hd with rfl | rfl | rfl | rfl | rfl | rfl
      · decide
      · decide
      all_goals exact hdigits _ (by omega)
    next hcontrol =>
      obtain rfl := List.mem_singleton.mp hd
      simpa using hcontrol

namespace Writes

theorem decodes (h : Writes quote text body) : Decodes Escape body text := by
  induction h with
  | nil => exact .nil
  | plain _ hc _ ih => exact .plain hc ih
  | escape he _ ih => exact .escape he ih

theorem stringEnd? (h : Writes quote text body) (hq : Scan.isQuote quote = true) (rest : List Char) :
    Scan.stringEnd? quote (body ++ quote :: rest) = some rest := by
  have hbackslash : quote ≠ '\\' := by rintro rfl; cases hq
  induction h with
  | nil => rw [List.nil_append, Scan.stringEnd?_plain quote hbackslash, if_pos rfl]
  | plain hne hc _ ih => rw [List.cons_append, Scan.stringEnd?_plain quote hc, if_neg hne, ih]
  | escape he _ ih =>
    cases he with
    | letter => exact (Scan.stringEnd?_escape quote _ _).trans ih
    | unicode hw hx hy hz =>
      have hdigit : ∀ {d : Char} {n : Nat}, (d, n) ∈ hexDigits → ∀ cs,
          Scan.stringEnd? quote (d :: cs) = Scan.stringEnd? quote cs := fun hd cs => by
        obtain ⟨hbackslash, hquote⟩ := plain_of_mem_hexDigits _ hd
        rw [Scan.stringEnd?_plain quote hbackslash, if_neg fun heq => ?_]
        rw [heq, hq] at hquote
        cases hquote
      refine (Scan.stringEnd?_escape quote _ _).trans ?_
      change Scan.stringEnd? quote (_ :: _ :: _ :: _ :: _) = some rest
      rw [hdigit hw, hdigit hx, hdigit hy, hdigit hz]
      exact ih

end Writes

end PathScript.Literal

namespace PathScript

/-! ## Literals in a source -/

theorem Scan.token_of_string {after : Option Char} {pos : Nat} {quote : Char} {cs rest : List Char}
    (hq : isQuote quote = true) (h : stringEnd? quote cs = some rest) :
    token after pos (quote :: cs) = .ok (.str, rest) := by
  have hstart : isNameStart quote = false ∧ startsNumber quote cs = false := by
    simp only [isQuote, Bool.or_eq_true, decide_eq_true_eq] at hq
    rcases hq with rfl | rfl <;> exact ⟨rfl, rfl⟩
  simp [token, hstart, hq, h]

theorem Cursor.string_of_next {c c' : Cursor} {l : Lexeme} (hn : c.next = .ok (l, c')) (hk : l.kind = .str) :
    ∃ quote body, Scan.isQuote quote = true ∧ l.chars = quote :: (body ++ [quote]) := by
  obtain ⟨c₁, -, hl⟩ := next_eq hn
  have ht := token_of_lexeme hl
  have hpasses := (passes_of_lexeme hl).rest
  rw [List.nil_append] at hpasses
  rw [hk, hpasses] at ht
  generalize hcs : l.chars ++ c'.rest = cs at ht
  cases Scan.tokenAt_of_eq ht with
  | @string quote cs _ hq hs =>
    obtain ⟨body, rfl⟩ := Scan.stringEnd?_eq hs
    have hchars : l.chars ++ c'.rest = quote :: (body ++ [quote]) ++ c'.rest := by simpa using hcs
    exact ⟨quote, body, hq, List.append_cancel_right hchars⟩
  | symbol hmem => exact absurd rfl (Scan.not_isEnclosed_of_mem_symbols _ hmem)

namespace Literal

theorem text_eq_of_chars {l : Lexeme} {quote : Char} {body : List Char} (h : l.chars = quote :: (body ++ [quote])) :
    text l = (unescape (l.span.start + 1) body).map String.ofList := by
  rw [text, h, List.drop_succ_cons, List.drop_zero, List.dropLast_concat]

theorem map_ofList_eq_ok {found : Except Located (List Char)} {s : String} :
    found.map String.ofList = .ok s ↔ found = .ok s.toList := by
  cases found with
  | error e => exact ⟨nofun, nofun⟩
  | ok text =>
    simp only [Except.map, Except.ok.injEq]
    constructor
    · rintro rfl
      rw [String.toList_ofList]
    · rintro rfl
      rw [String.ofList_toList]

end Literal

namespace Reader

open Literal

/-- The text of a literal, cut out of the source by its place, is that of the lexeme. -/
theorem unescape_eq_text {source : List Char} {s : Span} {r : Reader} {l : Lexeme} (hs : s.In source)
    (hr : (ofRange source s.start s.stop).Reached r) (hl : r.next.1 = .ok l) (hk : l.kind = .str) :
    r.unescape l.span.start l.span.stop = text l ∧
      ∃ quote body, Scan.isQuote quote = true ∧ l.chars = quote :: (body ++ [quote]) := by
  obtain ⟨after, hstands⟩ := stands_ofRange hs
  have hkept := Cursor.kept_inPart source s.stop after
  have hr := hstands.reached hkept hr
  obtain ⟨c, hn⟩ := hr.next_eq hkept hl
  obtain ⟨quote, body, hq, hchars⟩ := Cursor.string_of_next hn hk
  refine ⟨?_, quote, body, hq, hchars⟩
  have hplaced := (Cursor.placed_of_next hr.cursor.within hn).1
  obtain ⟨hin, htext⟩ := hplaced.enclosed (by rw [hk]; rfl)
  obtain ⟨gap, -, hstart, hstop, -⟩ := Cursor.passes_of_next hn
  have hinner : l.span.inner = ⟨l.span.start + 1, l.span.stop - 1⟩ := by
    have hlength : Text.byteLength l.chars = Text.byteLength body + 2 := by
      rw [hchars]
      simp [Scan.utf8Size_of_isQuote hq]
      omega
    rw [Span.inner, Span.mk.injEq]
    omega
  rw [hinner] at hin htext
  rw [hin.slice?] at htext
  rw [Reader.unescape, hr.source, Option.some.inj htext, text]

/-- A body that does not end its literal is read, between quotes, as one string, and nothing is left behind it. -/
theorem read_string (quote : Char) (body : List Char) (hq : Scan.isQuote quote = true)
    (h : Scan.stringEnd? quote (body ++ [quote]) = some []) :
    ∃ l r, (ofText (quote :: (body ++ [quote]))).next = (.ok l, r) ∧ l.kind = .str ∧
      l.chars = quote :: (body ++ [quote]) ∧ ∃ l', r.next.1 = .ok l' ∧ l'.kind = .eof := by
  have hstart : Text.isTokenBlank quote = false ∧ quote ≠ '/' := by
    simp only [Scan.isQuote, Bool.or_eq_true, decide_eq_true_eq] at hq
    rcases hq with rfl | rfl <;> decide
  have hlexeme := Cursor.lexeme_of_token (c := ⟨0, quote :: (body ++ [quote]), none⟩)
    (Scan.token_of_string hq h) (List.append_nil _).symm
  have hnext := (Cursor.next_eq_lexeme rfl hstart.1 hstart.2).trans hlexeme
  rw [ofText_eq]
  refine ⟨_, _, next_of_cursor (Nat.zero_add _).symm hnext, rfl, rfl, ?_⟩
  have hstop : Text.byteLength (quote :: (body ++ [quote])) = 0 + Text.byteLength (quote :: (body ++ [quote])) + 0 := by omega
  exact ⟨_, by rw [next_of_cursor hstop (Cursor.next_of_nil _)], rfl⟩

/-- String literals follow their grammar. Of every string that is read, at any place of a source, the text is what its
body stands for: characters as they are, and escapes, of which a plus sign in place of the first digit of a code is the
one that the grammar does not have. Any text can be written between quotes of either kind, without control characters,
and whichever way it is written, it is read as one string that stands for that text. -/
theorem literals_follow_grammar (source : List Char) (t : String) :
    (∀ (s : Span) (r : Reader) (l : Lexeme), s.In source →
      (ofRange source s.start s.stop).Reached r → r.next.1 = .ok l → l.kind = .str →
      ∃ quote body, Scan.isQuote quote = true ∧ l.chars = quote :: (body ++ [quote]) ∧
        r.unescape l.span.start l.span.stop = text l ∧ (∀ u : String, text l = .ok u ↔ Decodes Accepted body u.toList) ∧
        (¬ HasSigned body → ∀ u : String, text l = .ok u ↔ Decodes Escape body u.toList)) ∧
    ∀ quote : Char, Scan.isQuote quote = true →
      (Writes quote t.toList (write quote t.toList) ∧ ∀ c ∈ write quote t.toList, isControl c = false) ∧
      ∀ body, Writes quote t.toList body → ∃ l r,
        (ofText (quote :: (body ++ [quote]))).next = (.ok l, r) ∧ l.kind = .str ∧
        l.chars = quote :: (body ++ [quote]) ∧ text l = .ok t ∧ ∃ l', r.next.1 = .ok l' ∧ l'.kind = .eof := by
  refine ⟨fun s r l hs hr hl hk => ?_, fun quote hq => ⟨⟨writes_write hq _, not_isControl_of_mem_write hq _⟩, ?_⟩⟩
  · obtain ⟨heq, quote, body, hq, hchars⟩ := unescape_eq_text hs hr hl hk
    have hread : ∀ u : String, text l = .ok u ↔ Decodes Accepted body u.toList := fun u => by
      rw [text_eq_of_chars hchars, map_ofList_eq_ok, unescape_eq_ok_iff]
    refine ⟨quote, body, hq, hchars, heq, hread, fun hsigned u => (hread u).trans ⟨?_, ?_⟩⟩
    · exact fun h => h.of_accepted hsigned
    · exact fun h => h.accepted
  · intro body hwrites
    obtain ⟨l, r, hnext, hk, hchars, hend⟩ := read_string quote body hq (hwrites.stringEnd? hq [])
    refine ⟨l, r, hnext, hk, hchars, ?_, hend⟩
    rw [text_eq_of_chars hchars, map_ofList_eq_ok, unescape_eq_ok_iff]
    exact hwrites.decodes.accepted

/-- A string with an escape for a letter, and one that is written for a quote, a letter and a line feed. -/
theorem literals_follow_grammar_sample :
    (∃ l, (ofText "'\\u0041'".toList).next.1 = .ok l ∧ l.kind = .str ∧ ∃ quote body,
      l.chars = quote :: (body ++ [quote]) ∧ ¬ HasSigned body ∧ ∀ t : String, text l = .ok t ↔ Decodes Escape body t.toList) ∧
    ∃ l r, (ofText ('"' :: (write '"' "\"ü\n".toList ++ ['"']))).next = (.ok l, r) ∧ text l = .ok "\"ü\n" := by
  obtain ⟨hread, hwritten⟩ := literals_follow_grammar "'\\u0041'".toList "\"ü\n"
  constructor
  · obtain ⟨l, r, hnext, hk, hchars, -⟩ := read_string '\'' "\\u0041".toList rfl rfl
    have hl : (ofText "'\\u0041'".toList).next.1 = .ok l := congrArg Prod.fst hnext
    have hin : Span.In "'\\u0041'".toList ⟨0, 8⟩ := .part [] "'\\u0041'".toList []
    obtain ⟨quote, body, -, hbody, -, -, hgrammar⟩ := hread ⟨0, 8⟩ _ l hin .start hl hk
    have hsigned : ¬ HasSigned body := fun h => by
      have hmem : '+' ∈ l.chars := by rw [hbody]; simp [h.mem]
      rw [hchars] at hmem
      exact absurd hmem (by decide)
    exact ⟨l, hl, hk, quote, body, hbody, hsigned, hgrammar hsigned⟩
  · obtain ⟨⟨hwrites, -⟩, hreads⟩ := hwritten '"' rfl
    obtain ⟨l, r, hnext, -, -, htext, -⟩ := hreads _ hwrites
    exact ⟨l, r, hnext, htext⟩

/-- A code with a plus sign in place of its first digit is read, though no text follows it by the grammar. -/
theorem signed_code_is_read : ∃ l, (ofText "'\\u+041'".toList).next.1 = .ok l ∧ l.kind = .str ∧
    l.chars = "'\\u+041'".toList ∧ text l = .ok "A" ∧ ¬ ∃ t, Decodes Escape "\\u+041".toList t := by
  obtain ⟨l, r, hnext, hk, hchars, -⟩ := read_string '\'' "\\u+041".toList rfl rfl
  refine ⟨l, congrArg Prod.fst hnext, hk, hchars, ?_, ?_⟩
  · have hsigned : Accepted ['u', '+', '0', '4', '1'] 'A' :=
      .inr (.intro (j := 0) (k := 4) (l := 1) (by decide) (by decide) (by decide) rfl)
    have hdecodes : Decodes Accepted "\\u+041".toList "A".toList := .escape hsigned .nil
    rwa [text_eq_of_chars hchars, map_ofList_eq_ok, unescape_eq_ok_iff]
  · rintro ⟨t, ht⟩
    generalize hbody : "\\u+041".toList = body at ht
    cases ht with
    | nil => cases hbody
    | plain hc => cases hbody; exact hc rfl
    | escape he =>
      cases he with
      | letter mem => cases hbody; exact absurd (mem_letters_iff.mp mem) nofun
      | unicode hw => cases hbody; exact (utf8Size_of_mem_hexDigits _ hw).2 rfl

end Reader

end PathScript
