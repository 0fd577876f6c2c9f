import PathScript.Proofs.Arithmetic
import PathScript.Proofs.Escapes
import PathScript.Proofs.Opening
import PathScript.Proofs.Signed

/-! # Integer literals

The sign of an integer is no part of its token: the digits are scanned without
it, and a minus sign looks ahead for a number. The number is then read from the
sign and the digits together, so that the range is that of the signed number. -/

namespace PathScript

/-! ## Digits -/

namespace Number

variable {base k : Nat}

/-- The digits of a number, behind some zeros. -/
def padded (base zeros k : Nat) : List Char := List.replicate zeros '0' ++ Nat.toDigits base k

theorem digitValue?_digitChar : ∀ d < 16, digitValue? 16 (Nat.digitChar d) = some d ∧
    (d < 10 → digitValue? 10 (Nat.digitChar d) = some d) := by decide

theorem appendDigits_append (n : Nat) (xs ys : List Char) :
    appendDigits base n (xs ++ ys) = (appendDigits base n xs).bind (appendDigits base · ys) := by
  induction xs generalizing n with
  | nil => rfl
  | cons c xs ih =>
    rw [List.cons_append, appendDigits, appendDigits, Option.bind_assoc]
    exact congrArg _ (funext fun d => ih _)

theorem appendDigits_padded (hbase : base = 10 ∨ base = 16) (zeros k : Nat) :
    appendDigits base 0 (padded base zeros k) = some k := by
  have hvalue : ∀ d < base, digitValue? base (Nat.digitChar d) = some d := by
    rcases hbase with rfl | rfl
    · exact fun d hd => (digitValue?_digitChar d (by omega)).2 hd
    · exact fun d hd => (digitValue?_digitChar d hd).1
  have hzeros : appendDigits base 0 (List.replicate zeros '0') = some 0 := by
    induction zeros with
    | zero => rfl
    | succ zeros ih =>
      have hzero : digitValue? base '0' = some 0 := hvalue 0 (by omega)
      rw [List.replicate_succ, appendDigits, hzero]
      exact ih
  rw [padded, appendDigits_append, hzeros, Option.bind_some]
  induction k using Nat.strongRecOn with
  | ind k ih =>
    by_cases hk : k < base
    · rw [Nat.toDigits_of_lt_base hk, appendDigits, hvalue k hk]
      simp [appendDigits]
    · have hdiv : k / base < k := Nat.div_lt_self (by omega) (by omega)
      rw [Nat.toDigits_of_base_le (by omega) (by omega), appendDigits_append, ih _ hdiv, Option.bind_some, appendDigits,
        hvalue _ (Nat.mod_lt _ (by omega)), Option.bind_some, appendDigits, Nat.div_add_mod]

theorem digitValue?_of_appendDigits {n m : Nat} {cs : List Char} (h : appendDigits base n cs = some m) :
    ∀ c ∈ cs, ∃ d, digitValue? base c = some d := by
  induction cs generalizing n with
  | nil => exact nofun
  | cons c cs ih =>
    obtain ⟨d, hd, hrest⟩ := Option.bind_eq_some_iff.mp h
    exact List.forall_mem_cons.mpr ⟨⟨d, hd⟩, ih hrest⟩

theorem isHexDigit_of_mem_hexDigits : ∀ e ∈ Literal.hexDigits, Scan.isHexDigit e.1 = true := by decide

theorem isHexDigit_of_mem_padded {zeros : Nat} {c : Char} (h : c ∈ padded 16 zeros k) : Scan.isHexDigit c = true := by
  obtain ⟨d, hd⟩ := digitValue?_of_appendDigits (appendDigits_padded (.inr rfl) zeros k) c h
  exact isHexDigit_of_mem_hexDigits _ (Literal.mem_hexDigits_iff.mpr hd)

theorem isDigit_of_mem_padded {zeros : Nat} {c : Char} (h : c ∈ padded 10 zeros k) : c.isDigit = true := by
  obtain h | h := List.mem_append.mp h
  · rw [List.eq_of_mem_replicate h]
    rfl
  · exact Nat.isDigit_of_mem_toDigits (by decide) (by decide) h

theorem padded_ne_nil (base zeros k : Nat) : padded base zeros k ≠ [] :=
  List.append_ne_nil_of_right_ne_nil _ Nat.toDigits_ne_nil

theorem readInt?_padded (hbase : base = 10 ∨ base = 16) (negative : Bool) (zeros k : Nat) :
    readInt? base ((if negative then ['-'] else []) ++ padded base zeros k) = fit? (if negative then -k else k) := by
  have hread : readNat? base (padded base zeros k) = some k := by
    rw [← appendDigits_padded hbase zeros k]
    cases hcs : padded base zeros k with
    | nil => exact absurd hcs (padded_ne_nil base zeros k)
    | cons c cs => rfl
  have hunsigned : Unsigned (padded base zeros k) := by
    intro c hc
    obtain ⟨d, hd⟩ := digitValue?_of_appendDigits (appendDigits_padded hbase zeros k) c (List.mem_of_mem_head? hc)
    constructor <;> rintro rfl <;> rcases hbase with rfl | rfl <;> cases hd
  cases negative with
  | true => simp [readInt?, takeSign, hread]
  | false => simp [readInt?, takeSign_unsigned hunsigned, hread]

end Number

/-! ## Literals -/

namespace Literal

open Number (padded)

def mark (hex : Bool) : List Char := if hex then ['0', 'x'] else []

def base (hex : Bool) : Nat := if hex then 16 else 10

def suffix (long : Bool) : List Char := if long then ['l'] else []

theorem trimEnd_append {p : Char → Bool} {xs ys : List Char} (hxs : ∀ c ∈ xs, p c = false) (hys : ∀ c ∈ ys, p c = true) :
    trimEnd p (xs ++ ys) = xs := by
  have hstay : xs.reverse.dropWhile p = xs.reverse := by
    rw [List.dropWhile_eq_self_iff]
    intro hlt hhead
    exact absurd hhead (by rw [hxs _ (List.mem_reverse.mp (List.getElem_mem hlt))]; exact Bool.false_ne_true)
  rw [trimEnd, List.reverse_append, List.dropWhile_append_of_pos fun c hc => hys c (List.mem_reverse.mp hc), hstay,
    List.reverse_reverse]

theorem number?_padded (hex long negative : Bool) (zeros k : Nat) :
    number? (if negative then ['-'] else []) (mark hex ++ padded (base hex) zeros k ++ suffix long) =
      (Number.fit? (if negative then -k else k)).map .int := by
  cases hex with
  | true =>
    have htrim : trimEnd (· = 'l') (padded 16 zeros k ++ suffix long) = padded 16 zeros k := by
      refine trimEnd_append (fun c hc => decide_eq_false ?_) ?_
      · rintro rfl
        cases Number.isHexDigit_of_mem_padded hc
      · cases long <;> simp [suffix]
    rw [← Number.readInt?_padded (.inr rfl) negative zeros k, ← htrim]
    rfl
  | false =>
    have hdigit : ∀ c ∈ padded 10 zeros k, c.isDigit = true := fun c hc => Number.isDigit_of_mem_padded hc
    rw [← Number.readInt?_padded (.inl rfl) negative zeros k]
    change number? _ (padded 10 zeros k ++ suffix long) = _
    unfold number?
    split
    next digits heq =>
      have hx : 'x' ∈ padded 10 zeros k ++ suffix long := heq ▸ List.mem_cons_of_mem _ List.mem_cons_self
      obtain hx | hx := List.mem_append.mp hx
      · cases hdigit _ hx
      · cases long <;> simp [suffix] at hx
    next =>
      cases long with
      | true => rw [suffix, if_pos rfl, if_pos List.getLast?_concat, List.dropLast_concat]
      | false =>
        have hlast : ∀ {c}, (padded 10 zeros k).getLast? = some c → c.isDigit = true := fun h =>
          hdigit _ (List.mem_of_getLast? h)
        have hfloat : ∀ c ∈ padded 10 zeros k, ¬ (decide (c = '.') || decide (c = 'e')) = true := by
          intro c hc hmark
          rcases (by simpa using hmark : c = '.' ∨ c = 'e') with rfl | rfl <;> cases hdigit _ hc
        have hd : ∀ c, c.isDigit = false → ((padded 10 zeros k).getLast? == some c) = false := fun c hc =>
          beq_eq_false_iff_ne.mpr fun h => Bool.false_ne_true (hc.symm.trans (hlast h))
        rw [suffix, if_neg Bool.false_ne_true, List.append_nil, if_neg fun h => absurd (hlast h) (by decide), hd 'd' rfl,
          hd 'f' rfl, if_neg (by decide), if_neg (fun h => (List.any_eq_true.mp h).elim fun c hc => hfloat c hc.1 hc.2)]

end Literal

/-! ## Texts of integers -/

/-- A way to write an integer: its sign and the blanks behind that, its base, zeros in front and the suffix. -/
structure IntegerText where
  negative : Bool
  gap : List Char
  blank : gap.all Text.isTokenBlank = true
  hex : Bool
  zeros : Nat
  magnitude : Nat
  long : Bool

namespace IntegerText

variable {s : IntegerText} {body ds rest : List Char}

def value (s : IntegerText) : Int := if s.negative then -s.magnitude else s.magnitude

/-- Whether characters are those of the integer without its sign, letters being in either case. -/
def Unsigned (s : IntegerText) (body : List Char) : Prop :=
  body.map Char.toLower =
    Literal.mark s.hex ++ Number.padded (Literal.base s.hex) s.zeros s.magnitude ++ Literal.suffix s.long

/-- Whether a text is one of the integer. -/
inductive Spells (s : IntegerText) : List Char → Prop
  | positive {cs : List Char} : s.negative = false → s.Unsigned cs → Spells s cs
  | negative {cs : List Char} : s.negative = true → s.Unsigned cs → Spells s ('-' :: (s.gap ++ cs))

def isDigit (s : IntegerText) (c : Char) : Bool := if s.hex then Scan.isHexDigit c else c.isDigit

theorem isDigit_iff {c : Char} : s.isDigit c = true ↔ 48 ≤ c.toNat ∧ c.toNat ≤ 57 ∨
    s.hex = true ∧ (97 ≤ c.toNat ∧ c.toNat ≤ 102 ∨ 65 ≤ c.toNat ∧ c.toNat ≤ 70) := by
  have hdecimal : c.isDigit = true ↔ 48 ≤ c.toNat ∧ c.toNat ≤ 57 := by
    simp [Char.isDigit, UInt32.le_iff_toNat_le]
  unfold isDigit
  split
  next hhex => simp [Scan.isHexDigit, hdecimal, hhex, Char.le_def, UInt32.le_iff_toNat_le, or_assoc]
  next hhex => simp [hdecimal, hhex]

theorem isDigit_of_toLower {c : Char} (h : s.isDigit c.toLower = true) : s.isDigit c = true := by
  obtain hc | ⟨hle, hle', hc⟩ := Scan.toLower_cases c
  · rwa [hc] at h
  · rw [isDigit_iff] at h ⊢
    obtain h | ⟨hhex, h⟩ := h
    · omega
    · exact .inr ⟨hhex, by omega⟩

theorem isDigit_of_mem {c : Char} (h : c ∈ Number.padded (Literal.base s.hex) s.zeros s.magnitude) : s.isDigit c = true := by
  unfold isDigit
  cases hhex : s.hex with
  | true => exact Number.isHexDigit_of_mem_padded (by simpa [hhex, Literal.base] using h)
  | false => exact Number.isDigit_of_mem_padded (by simpa [hhex, Literal.base] using h)

theorem Unsigned.parts (h : s.Unsigned body) : ∃ front ds rest, body = front ++ (ds ++ rest) ∧
    front.map Char.toLower = Literal.mark s.hex ∧ ds ≠ [] ∧ (∀ c ∈ ds, s.isDigit c = true) ∧
      (rest = [] ∨ rest = ['l'] ∨ rest = ['L']) := by
  obtain ⟨xs, rest, rfl, hxs, hrest⟩ := List.map_eq_append_iff.mp h
  obtain ⟨front, ds, rfl, hfront, hds⟩ := List.map_eq_append_iff.mp hxs
  refine ⟨front, ds, rest, List.append_assoc .., hfront, ?_, fun c hc => ?_, ?_⟩
  · rintro rfl
    exact Number.padded_ne_nil _ _ _ hds.symm
  · exact isDigit_of_toLower (isDigit_of_mem (hds ▸ List.mem_map_of_mem hc))
  · unfold Literal.suffix at hrest
    split at hrest
    next =>
      obtain ⟨c, rfl, hc⟩ := List.map_eq_singleton_iff.mp hrest
      obtain heq | ⟨-, -, heq⟩ := Scan.toLower_cases c
      · exact .inr (.inl (by rw [← heq, hc]))
      · rw [hc] at heq
        obtain rfl : c = 'L' := Char.toNat_inj.mp (Nat.add_right_cancel (heq.symm : c.toNat + 32 = 76 + 32))
        exact .inr (.inr rfl)
    next => exact .inl (List.map_eq_nil_iff.mp hrest)

theorem dropWhile_digits (hds : ∀ c ∈ ds, s.isDigit c = true) (hrest : rest = [] ∨ rest = ['l'] ∨ rest = ['L']) :
    (ds ++ rest).dropWhile s.isDigit = rest := by
  have hl : s.isDigit 'l' = false ∧ s.isDigit 'L' = false := by
    unfold isDigit
    cases s.hex <;> decide
  rw [List.dropWhile_append_of_pos hds]
  rcases hrest with rfl | rfl | rfl
  · rfl
  · exact List.dropWhile_cons_of_neg (by rw [hl.1]; decide)
  · exact List.dropWhile_cons_of_neg (by rw [hl.2]; decide)

/-- An integer without its sign is scanned as one number, which starts with a digit. -/
theorem Unsigned.number_eq (h : s.Unsigned body) :
    Scan.number body = .ok [] ∧ ∃ c more, body = c :: more ∧ c.isDigit = true := by
  obtain ⟨front, ds, rest, rfl, hfront, hne, hds, hrest⟩ := h.parts
  obtain ⟨d, ds, rfl⟩ := List.exists_cons_of_ne_nil hne
  have hend : Scan.numberEnd rest = .ok [] := by rcases hrest with rfl | rfl | rfl <;> rfl
  have hdrop := dropWhile_digits hds hrest
  cases hhex : s.hex with
  | true =>
    have hclass : s.isDigit = Scan.isHexDigit := funext fun c => if_pos hhex
    rw [hclass] at hds hdrop
    rw [hhex] at hfront
    obtain ⟨z, x, rfl, hz, hx⟩ : ∃ z x, front = [z, x] ∧ z.toLower = '0' ∧ x.toLower = 'x' := by
      obtain ⟨z, more, rfl, hz, hmore⟩ := List.map_eq_cons_iff.mp hfront
      obtain ⟨x, rfl, hx⟩ := List.map_eq_singleton_iff.mp hmore
      exact ⟨z, x, rfl, hz, hx⟩
    obtain rfl := Scan.eq_of_toLower (by decide) hz
    refine ⟨?_, '0', _, rfl, rfl⟩
    have hstart : Scan.startsWith Scan.isHexDigit (d :: ds ++ rest) = true := hds d List.mem_cons_self
    have hnumber := Scan.number_of_hex (Scan.isHexMark_of_toLower hx) (d :: ds ++ rest)
    rw [if_pos hstart, hdrop, hend] at hnumber
    exact hnumber
  | false =>
    have hclass : s.isDigit = Char.isDigit := funext fun c => if_neg (by rw [hhex]; decide)
    rw [hclass] at hds hdrop
    rw [hhex] at hfront
    obtain rfl := List.map_eq_nil_iff.mp (hfront : front.map Char.toLower = [])
    refine ⟨?_, d, _, rfl, hds d List.mem_cons_self⟩
    have hdecimal : Scan.decimal (d :: ds ++ rest) = rest := by
      rw [Scan.decimal, hdrop]
      rcases hrest with rfl | rfl | rfl <;> rfl
    refine (Scan.number_of_decimal fun c more heq => ?_).trans (by rw [List.nil_append, hdecimal, hend])
    have hc : c ∈ (d :: ds) ++ rest := by
      have hcs : d :: ds ++ rest = '0' :: c :: more := heq
      rw [hcs]
      exact List.mem_cons_of_mem _ List.mem_cons_self
    refine Bool.eq_false_iff.mpr fun hmark => ?_
    obtain rfl | rfl : c = 'x' ∨ c = 'X' := by simpa [Scan.isHexMark] using hmark
    all_goals
      obtain hc | hc := List.mem_append.mp hc
      · exact absurd (hds _ hc) (by decide)
      · rcases hrest with rfl | rfl | rfl <;> exact absurd hc (by decide)

end IntegerText

/-! ## Tokens -/

namespace Scan

/-- A digit is none of the characters that something else starts with. -/
theorem starts_nothing_else {c : Char} (h : c.isDigit = true) :
    isNameStart c = false ∧ Text.isTokenBlank c = false ∧ c ≠ '/' ∧ c ≠ '-' ∧ c ≠ '=' := by
  have hn : 48 ≤ c.toNat ∧ c.toNat ≤ 57 := by simpa [Char.isDigit, UInt32.le_iff_toNat_le] using h
  have hne : ∀ d : Char, d.isDigit = false → c ≠ d := by
    rintro d hd rfl
    exact Bool.false_ne_true (hd.symm.trans h)
  have halpha : c.isAlpha = false := by
    simp only [Char.isAlpha, Char.isUpper, Char.isLower, UInt32.le_iff_toNat_le, ge_iff_le, Char.toNat_val]
    simp
    omega
  refine ⟨?_, ?_, hne _ rfl, hne _ rfl, hne _ rfl⟩
  · simp [isNameStart, hne '_' rfl, hne '$' rfl, halpha]
    omega
  · simp [Text.isTokenBlank, hne ' ' rfl, hne '\t' rfl, hne '\n' rfl, hne '\x0c' rfl, hne '\r' rfl]

theorem trivia_blanks {gap : List Char} (hgap : ∀ c ∈ gap, Text.isTokenBlank c = true) (after : Option Char) (pos : Nat)
    (cs : List Char) : ∃ pos', trivia after pos (gap ++ cs) = trivia after pos' cs := by
  induction gap generalizing pos with
  | nil => exact ⟨pos, rfl⟩
  | cons c gap ih =>
    rw [List.cons_append, trivia, if_pos (hgap c List.mem_cons_self)]
    exact ih (fun c hc => hgap c (List.mem_cons_of_mem _ hc)) _

/-- A minus sign is a token of its own unless it is one of an assignment or of a decrement. -/
theorem token_minus {c : Char} (hc : c ≠ '-' ∧ c ≠ '=') (after : Option Char) (pos : Nat) (cs : List Char) :
    token after pos ('-' :: c :: cs) = .ok (.operator .sub, c :: cs) := by
  have hsymbol : symbol? ('-' :: c :: cs) = some (.operator .sub, c :: cs) := by
    simp [symbol?, symbols, dropText?, hc.1.symm, hc.2.symm]
  have hother : isNameStart '-' = false ∧ isQuote '-' = false ∧ Delim.ofOpener? '-' = none ∧ Delim.isCloser '-' = false := by
    decide
  simp only [token, hother, startsNumber, hsymbol]
  rfl

end Scan

namespace IntegerText

variable {s : IntegerText} {body : List Char}

/-- Behind blanks and at the end of a text, an integer without its sign is the only token. -/
theorem Unsigned.tokens_eq {gap : List Char} (h : s.Unsigned body) (hgap : ∀ c ∈ gap, Text.isTokenBlank c = true) (pos : Nat) :
    ∃ t p, (⟨pos, gap ++ body, none⟩ : Cursor).tokens = .cons t (.eof p) ∧ t.kind = .number ∧ t.lexeme.chars = body := by
  obtain ⟨hnumber, c, more, rfl, hc⟩ := h.number_eq
  obtain ⟨hname, hblank, hslash, -⟩ := Scan.starts_nothing_else hc
  obtain ⟨pos', htrivia⟩ := Scan.trivia_blanks hgap none pos (c :: more)
  have htoken : Scan.token none pos' (c :: more) = .ok (.number, []) := by
    rw [Scan.token, hname, if_neg (by decide), if_pos (by simp [Scan.startsNumber, hc]), hnumber]
  have hlexeme := (Cursor.next_eq_lexeme rfl hblank hslash).trans
    (Cursor.lexeme_of_token (c := ⟨pos', c :: more, none⟩) htoken (List.append_nil _).symm)
  have hnext : (⟨pos, gap ++ c :: more, none⟩ : Cursor).next = (⟨pos', c :: more, none⟩ : Cursor).next := by
    simp only [Cursor.next, Cursor.skipTrivia, htrivia]
  rw [hlexeme] at hnext
  obtain ⟨inner, htokens⟩ := Cursor.tokens_of_next hnext (by simp) (by simp)
  exact ⟨_, _, htokens.trans (congrArg _ (Cursor.tokens_of_nil _)), rfl, rfl⟩

/-- A stream of a number and nothing else, behind a minus sign or not. -/
inductive Streams (ts : Tokens) (t : Token) : Bool → Prop
  | positive {p : Nat} : ts = .cons t (.eof p) → Streams ts t false
  | negative {p : Nat} {m : Token} : m.kind = .operator .sub → ts = .cons m (.cons t (.eof p)) → Streams ts t true

theorem Spells.streams {source : List Char} (h : s.Spells source) :
    ∃ t, t.kind = .number ∧ s.Unsigned t.lexeme.chars ∧ Streams (.ofText source) t s.negative := by
  cases h with
  | positive hsign hbody =>
    obtain ⟨t, p, htokens, hkind, hchars⟩ := hbody.tokens_eq (List.forall_mem_nil _) 0
    exact ⟨t, hkind, hchars ▸ hbody, hsign ▸ .positive htokens⟩
  | @negative body hsign hbody =>
    obtain ⟨x, xs, hx, hstart⟩ : ∃ x xs, s.gap ++ body = x :: xs ∧ x ≠ '-' ∧ x ≠ '=' := by
      cases hgap : s.gap with
      | nil =>
        obtain ⟨-, c, more, rfl, hc⟩ := hbody.number_eq
        exact ⟨c, more, rfl, (Scan.starts_nothing_else hc).2.2.2⟩
      | cons b gap =>
        have hb : Text.isTokenBlank b = true := List.all_eq_true.mp s.blank b (hgap ▸ List.mem_cons_self)
        refine ⟨b, _, rfl, ?_, ?_⟩ <;> rintro rfl <;> cases hb
    have htoken := Scan.token_minus hstart none 0 xs
    rw [← hx] at htoken
    have hnext := (Cursor.next_eq_lexeme rfl (by decide) (by decide)).trans
      (Cursor.lexeme_of_token (c := ⟨0, '-' :: (s.gap ++ body), none⟩) htoken List.singleton_append.symm)
    obtain ⟨inner, hsource⟩ := Cursor.tokens_of_next hnext nofun (by simp)
    obtain ⟨t, p, htokens, hkind, hchars⟩ := hbody.tokens_eq (List.all_eq_true.mp s.blank) _
    exact ⟨t, hkind, hchars ▸ hbody, hsign ▸ .negative rfl (hsource.trans (congrArg _ htokens))⟩

end IntegerText

/-! ## Literal nodes -/

namespace Compile

open IntegerText (Streams)

variable {t : Token}

theorem size_first_lt (t : Token) (rest : Tokens) : t.inner.size + rest.size < (Tokens.cons t rest).size := by
  rw [Tokens.size_cons]
  exact Nat.lt_succ_self _

theorem numberNode_eq (t : Token) (minus : Option Span) (env : Env) (st : State) : ∃ i : Value → Info,
    numberNode t minus env st = (Literal.number t.lexeme minus.isSome).map fun v => (⟨i v, .literal v⟩, st) := by
  unfold numberNode
  cases Literal.number t.lexeme minus.isSome with
  | error e => exact ⟨fun _ => default, rfl⟩
  | ok v => exact ⟨fun _ => _, rfl⟩

variable (hkind : t.kind = .number) (p : Nat) (env : Env) (st : State)
include hkind

theorem primary_number (rest : Tokens) :
    primary (.cons t rest) env st = (numberNode t none env st).map fun r =>
      (⟨.expression r.1, r.1.span, rest, Taken.rest_le (size_first_lt t rest)⟩, r.2) := by
  rw [primary, bind_ok (take?_eq_some rfl rfl (size_first_lt t rest) env st)]
  simp only [hkind]
  exact bind_map fun _ _ => rfl

theorem operand_number :
    operand (.cons t (.eof p)) env st = (numberNode t none env st).map fun r =>
      (⟨r.1, .eof p, Taken.rest_le (size_first_lt t _)⟩, r.2) := by
  rw [operand]
  refine bind_of_map (primary_number hkind env st (.eof p)) fun r _ => ?_
  have hsteps : steps (.eof p) env r.2 = .ok (⟨[], .eof p, Tokens.size_le_refl _⟩, r.2) := by
    have hnone : take? (.eof p) isStep env r.2 = .ok (none, r.2) := take?_eq_none rfl rfl env r.2
    rw [steps, bind_ok hnone]
    rfl
  exact bind_ok hsteps _

theorem unary_number :
    unary (.cons t (.eof p)) env st = (numberNode t none env st).map fun r =>
      (⟨r.1, .eof p, Taken.rest_le (size_first_lt t _)⟩, r.2) := by
  rw [unary, bind_ok (takeAs?_eq_none (t := t) rfl (by simp [sign?, delta?, hkind]) env st)]
  refine bind_of_map (operand_number hkind p env st) fun r _ => ?_
  exact bind_ok (takeAs?_eq_none (f := delta?) rfl rfl env r.2) _

theorem negativeNumber?_number (minus : Span) :
    negativeNumber? (.cons t (.eof p)) minus env st = (numberNode t (some minus) env st).map fun r =>
      (some ⟨r.1, .eof p, Taken.rest_le (size_first_lt t _)⟩, r.2) := by
  rw [negativeNumber?, takeKind?, bind_ok (take?_eq_some (p := (·.kind == .number)) rfl
    (beq_iff_eq.mpr hkind) (size_first_lt t _) env st)]
  dsimp only
  rw [bind_ok (peek_eq rfl env st)]
  exact bind_map fun _ _ => rfl

theorem unary_minus {m : Token} (hm : m.kind = .operator .sub) :
    unary (.cons m (.cons t (.eof p))) env st = (numberNode t (some m.span) env st).map fun r =>
      (⟨r.1, .eof p, (Taken.rest_le (size_first_lt t _)).trans (Taken.rest_le (size_first_lt m _))⟩, r.2) := by
  have hsign : sign? m = some .minus := by simp [sign?, hm]
  have htake : takeAs? (.cons m (.cons t (.eof p))) sign? env st = .ok (some (.minus, ⟨m, _, size_first_lt m _⟩), st) := by
    rw [takeAs?, bind_ok (take?_eq_some rfl (by rw [hsign]; rfl) (size_first_lt m _) env st)]
    simp only [hsign]
    rfl
  rw [unary, bind_ok htake]
  exact bind_of_map (negativeNumber?_number hkind p env st m.span) fun _ _ => rfl

end Compile

namespace IntegerText

open Compile

variable {s : IntegerText} {t : Token} {ts : Tokens} {negative : Bool}

theorem Streams.unary_eq (h : Streams ts t negative) (hkind : t.kind = .number) : ∃ minus : Option Span,
    minus.isSome = negative ∧ ∃ rest le, Ended rest ∧ ∀ env st,
      unary ts env st = (numberNode t minus env st).map fun r => (⟨r.1, rest, le⟩, r.2) := by
  cases h with
  | positive hts =>
    subst hts
    exact ⟨none, rfl, _, _, ⟨_, rfl, rfl⟩, unary_number hkind _⟩
  | negative hm hts =>
    subst hts
    exact ⟨some _, rfl, _, _, ⟨_, rfl, rfl⟩, fun env st => unary_minus hkind _ env st hm⟩

theorem Streams.opens (h : Streams ts t negative) (hkind : t.kind = .number) (env : Env) : Opens ts env := by
  cases h with
  | positive hts => exact .of_kind (by rw [hts]; rfl) (by simp [hkind]) (by simp [hkind]) (by simp [hkind]) env
  | negative hm hts => exact .of_kind (by rw [hts]; rfl) (by simp [hm]) (by simp [hm]) (by simp [hm]) env

/-- The literal of an integer that fits into 64 bits, and the fault in one that does not. -/
theorem Unsigned.literal_eq {l : Lexeme} (h : s.Unsigned l.chars) : Literal.number l s.negative =
    match Number.fit? s.value with
    | some n => .ok (.int n)
    | none => .error ⟨.badNumber (String.ofList ((if s.negative then ['-'] else []) ++ l.chars)), l.span.start⟩ := by
  have hvalue : Literal.number? (if s.negative then ['-'] else []) (l.chars.map Char.toLower) =
      (Number.fit? s.value).map .int := h ▸ Literal.number?_padded s.hex s.long s.negative s.zeros s.magnitude
  simp only [Literal.number, hvalue]
  cases Number.fit? s.value with
  | none => rfl
  | some n => rfl

/-- Every way to write an integer of 64 bits compiles to the literal of it, and beyond their range none compiles. -/
theorem integer_literals_exact {env : Compile.Env} (h : s.Spells env.source) (site function : Nat) :
    (∀ n : Int64, n.toInt = s.value → ∃ i i', compileProgram env site function =
      .ok ⟨⟨i, .block [⟨i', .literal (.int n)⟩] false⟩, [], site⟩) ∧
    (s.value < -2 ^ 63 ∨ 2 ^ 63 ≤ s.value → ∃ e, compileProgram env site function = .error e ∧
      e.fault.kind = .invalidLiteral) := by
  obtain ⟨t, hkind, hchars, hstream⟩ := h.streams
  obtain ⟨minus, hminus, rest, le, hended, hunary⟩ := hstream.unary_eq hkind
  obtain ⟨i', hnode⟩ := numberNode_eq t minus env (.start site function)
  have hnumber := hminus ▸ hchars.literal_eq
  have hoperand := hunary env (.start site function)
  rw [hnode] at hoperand
  obtain ⟨i, hprogram⟩ := (hstream.opens hkind env).program_eq (.start site function) fun {a st'} ha => by
    rw [hoperand] at ha
    cases hn : Literal.number t.lexeme minus.isSome with
    | error e => rw [hn] at ha; cases ha
    | ok v => rw [hn] at ha; cases ha; exact ⟨hended, rfl⟩
  unfold compileProgram Compile.run
  rw [hprogram, hoperand, hnumber]
  constructor
  · intro n hn
    rw [Number.fit?_eq_some_iff.mpr hn]
    exact ⟨_, _, rfl⟩
  · intro hrange
    rw [Number.fit?_eq_none_iff.mpr hrange]
    exact ⟨_, rfl, rfl⟩

theorem integer_literals_exact_least :
    let least : IntegerText := ⟨true, [' ', '\t'], rfl, true, 1, 2 ^ 63, true⟩
    let below : IntegerText := ⟨true, [], rfl, false, 0, 2 ^ 63 + 1, false⟩
    let env (source : String) : Compile.Env := ⟨source.toList, .standard, .standard, .standard⟩
    least.Spells (env "- \t0X08000000000000000L").source ∧ below.Spells (env "-9223372036854775809").source ∧
      (∃ i i', compileProgram (env "- \t0X08000000000000000L") 0 0 =
        .ok ⟨⟨i, .block [⟨i', .literal (.int Int64.minValue)⟩] false⟩, [], 0⟩) ∧
      ∃ e, compileProgram (env "-9223372036854775809") 0 0 = .error e ∧ e.fault.kind = .invalidLiteral := by
  intro least below env
  have hleast : least.Unsigned "0X08000000000000000L".toList := by
    unfold Unsigned
    decide +kernel
  have hbelow : below.Unsigned "9223372036854775809".toList := by
    unfold Unsigned
    decide +kernel
  have hleast : least.Spells (env "- \t0X08000000000000000L").source := .negative rfl hleast
  have hbelow : below.Spells (env "-9223372036854775809").source := .negative rfl hbelow
  exact ⟨hleast, hbelow, (integer_literals_exact hleast 0 0).1 Int64.minValue (by decide),
    (integer_literals_exact hbelow 0 0).2 (.inl (by decide))⟩

end IntegerText

end PathScript
