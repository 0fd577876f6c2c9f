import Mathlib
import PathScript.Proofs.Tiling

/-! # Signs of numbers

A minus sign before a number literal belongs to the literal, so that the least
integer can be written. For every number that can be written without a sign, the
literal with the sign is the negation of the one without: of an integer because
the range reaches at least as far down as up, of a double because the sign is a
bit of its own. -/

namespace PathScript

/-! ## Doubles -/

namespace Binary64

open Float.Model Float.Model.UnpackedFloat

/-- The bits of the double with the other sign. -/
def flipSign (b : BitVec 64) : BitVec 64 := b + 0x8000000000000000#64

theorem toNat_flipSign (b : BitVec 64) :
    (flipSign b).toNat = (b.toNat + 9223372036854775808) % 18446744073709551616 := BitVec.toNat_add _ _

theorem mantissa_flipSign (b : BitVec 64) : BitVec.extractLsb' 0 52 (flipSign b) = BitVec.extractLsb' 0 52 b := by
  apply BitVec.eq_of_toNat_eq
  rw [BitVec.extractLsb'_toNat, BitVec.extractLsb'_toNat, toNat_flipSign, Nat.shiftRight_zero, Nat.shiftRight_zero]
  omega

theorem exponent_flipSign (b : BitVec 64) : BitVec.extractLsb' 52 11 (flipSign b) = BitVec.extractLsb' 52 11 b := by
  apply BitVec.eq_of_toNat_eq
  rw [BitVec.extractLsb'_toNat, BitVec.extractLsb'_toNat, toNat_flipSign, Nat.shiftRight_eq_div_pow,
    Nat.shiftRight_eq_div_pow]
  omega

theorem sign_flipSign (b : BitVec 64) : BitVec.extractLsb' 63 1 (flipSign b) ≠ BitVec.extractLsb' 63 1 b := by
  intro h
  have hnat := congrArg BitVec.toNat h
  rw [BitVec.extractLsb'_toNat, BitVec.extractLsb'_toNat, toNat_flipSign, Nat.shiftRight_eq_div_pow,
    Nat.shiftRight_eq_div_pow] at hnat
  have hlt := b.isLt
  omega

theorem ofBitVec_of_ne {x y : BitVec 1} (h : x ≠ y) : Sign.ofBitVec x = -Sign.ofBitVec y := by
  obtain rfl | rfl := BitVec.eq_zero_or_eq_one x <;> obtain rfl | rfl := BitVec.eq_zero_or_eq_one y
  · exact absurd rfl h
  · rfl
  · rfl
  · exact absurd rfl h

theorem unpack_flipSign (b : BitVec 64) :
    UnpackedFloat.unpack .binary64 (flipSign b) = (UnpackedFloat.unpack .binary64 b).neg := by
  have hm : @unpackMantissa .binary64 (flipSign b) = @unpackMantissa .binary64 b := by
    rw [unpackMantissa_def, unpackMantissa_def]
    exact mantissa_flipSign b
  have he : @unpackExponent .binary64 (flipSign b) = @unpackExponent .binary64 b := by
    rw [unpackExponent_def, unpackExponent_def]
    exact exponent_flipSign b
  have hs : Sign.ofBitVec (@unpackSign .binary64 (flipSign b)) = -Sign.ofBitVec (@unpackSign .binary64 b) := by
    rw [unpackSign_def, unpackSign_def]
    exact ofBitVec_of_ne (sign_flipSign b)
  unfold UnpackedFloat.unpack
  simp only [hm, he, hs]
  split
  · split <;> rfl
  · split
    · split <;> rfl
    · rfl

/-- Bits that are no number are packed to other such bits, and read the same. -/
theorem unpack_pack_unpack (b : BitVec 64) :
    UnpackedFloat.unpack .binary64 (UnpackedFloat.pack .binary64 (UnpackedFloat.unpack .binary64 b)) =
      UnpackedFloat.unpack .binary64 b := by
  rw [pack_unpack]
  split
  next h =>
    obtain ⟨he, hm⟩ := of_decide_eq_true h
    rw [unpack_packedNaN, UnpackedFloat.unpack]
    simp only [he, hm, if_true, if_false]
  next => rfl

theorem neg_ofBits (b : UInt64) : -Float.ofBits b = Float.ofBits ⟨flipSign b.toBitVec⟩ := by
  have h : (Float.Model.ofBits b).unpack.neg = UnpackedFloat.unpack .binary64 (flipSign b.toBitVec) := by
    rw [unpack_flipSign]
    exact congrArg UnpackedFloat.neg (unpack_pack_unpack _)
  exact congrArg (fun u => Float.ofModel (Float.Model.pack u)) h

theorem ofBits_signed (n : Nat) : Float.ofBits (UInt64.ofNat (signBit + n)) = -Float.ofBits (UInt64.ofNat (0 + n)) := by
  rw [neg_ofBits, Nat.zero_add, Nat.add_comm, UInt64.ofNat_add]
  rfl

theorem assemble_negative (m : Nat) (q : Int) : assemble true m q = -assemble false m q := ofBits_signed _

theorem infinity_negative : infinity true = -infinity false := ofBits_signed _

theorem nearest_negative (num den : Nat) : nearest true num den = -nearest false num den := by
  unfold nearest
  simp only [assemble_negative, infinity_negative, apply_ite (Neg.neg : Float → Float)]

end Binary64

/-! ## Texts of numbers -/

namespace Number

variable {cs cs' : List Char}

/-- A text that does not start with a sign. -/
def Unsigned (cs : List Char) : Prop := ∀ c ∈ cs.head?, c ≠ '-' ∧ c ≠ '+'

theorem Unsigned.cut (h : Unsigned cs) (hp : cs' <+: cs) : Unsigned cs' := by
  obtain ⟨rest, rfl⟩ := hp
  cases cs' with
  | nil => intro c hc; cases hc
  | cons c cs' => exact h

theorem takeSign_unsigned (h : Unsigned cs) : takeSign cs = (false, cs) := by
  unfold takeSign
  split
  · exact absurd rfl (h '-' rfl).1
  · exact absurd rfl (h '+' rfl).2
  · rfl

theorem readInt?_minus {base : Nat} {n : Int64} (hcs : Unsigned cs) (h : readInt? base cs = some n) :
    ∃ m, readInt? base ('-' :: cs) = some m ∧ neg? n = some m := by
  unfold readInt? at h ⊢
  rw [takeSign_unsigned hcs] at h
  obtain ⟨k, hk, hfit⟩ := Option.bind_eq_some_iff.mp h
  have hn : n.toInt = k := fit?_eq_some_iff.mp hfit
  have hle : n.toInt ≤ Int64.maxValue.toInt := Int64.toInt_le n
  -- The range reaches at least as far down as up.
  have hm : fit? (-(k : Int)) = some (Int64.ofInt (-(k : Int))) := by
    unfold fit?
    rw [if_pos]
    rw [Int64.toInt_minValue, Int64.toInt_maxValue] at *
    omega
  refine ⟨Int64.ofInt (-(k : Int)), ?_, ?_⟩
  · simp only [takeSign, hk, Option.bind_some, if_true]
    exact hm
  · rw [neg?, hn]
    exact hm

theorem ofScientific_negative (n : Nat) (e : Int) : ofScientific true n e = -ofScientific false n e := by
  unfold ofScientific
  dsimp only
  split
  · exact Binary64.nearest_negative _ _
  · split
    · exact Binary64.infinity_negative
    · split
      · exact Binary64.nearest_negative _ _
      · exact Binary64.nearest_negative _ _

theorem readDecimal?_negative (cs : List Char) : readDecimal? true cs = (readDecimal? false cs).map (-·) := by
  unfold readDecimal?
  simp only [ofScientific_negative, apply_ite (Option.map _), Option.map_none, Option.bind_eq_bind, Option.map_bind,
    Option.pure_def, Function.comp_def, Option.map_some]

theorem readFloat?_minus (hcs : Unsigned cs) : readFloat? ('-' :: cs) = (readFloat? cs).map (-·) := by
  unfold readFloat?
  rw [takeSign_unsigned hcs]
  simp only [takeSign]
  split
  · rw [Binary64.infinity_negative]
    rfl
  · split
    · rfl
    · exact readDecimal?_negative cs

end Number

/-! ## Number literals -/

namespace Literal

open Number (Unsigned)

variable {cs : List Char} {w : Value}

theorem trimEnd_isPrefix (p : Char → Bool) (cs : List Char) : trimEnd p cs <+: cs := by
  have h := List.reverse_prefix.mpr (List.dropWhile_suffix (l := cs.reverse) p)
  rwa [List.reverse_reverse] at h

theorem int_minus {base : Nat} (hcs : Unsigned cs) (h : (Number.readInt? base ([] ++ cs)).map Value.int = some w) :
    ∃ v, (Number.readInt? base (['-'] ++ cs)).map Value.int = some v ∧ UnaryOp.neg.apply w = .ok v := by
  obtain ⟨n, hn, rfl⟩ := Option.map_eq_some_iff.mp h
  obtain ⟨m, hm, hneg⟩ := Number.readInt?_minus hcs hn
  exact ⟨.int m, congrArg (Option.map Value.int) hm, congrArg Operator.checked hneg⟩

theorem float_minus (hcs : Unsigned cs) (h : (Number.readFloat? ([] ++ cs)).map Value.float = some w) :
    ∃ v, (Number.readFloat? (['-'] ++ cs)).map Value.float = some v ∧ UnaryOp.neg.apply w = .ok v := by
  obtain ⟨x, hx, rfl⟩ := Option.map_eq_some_iff.mp h
  refine ⟨.float (-x), ?_, rfl⟩
  change (Number.readFloat? ('-' :: cs)).map Value.float = _
  rw [Number.readFloat?_minus hcs, show Number.readFloat? cs = some x from hx]
  rfl

/-- A text that starts with no sign, neither as a decimal number nor behind the mark of a hexadecimal one. -/
structure Unmarked (cs : List Char) : Prop where
  decimal : Unsigned cs
  hexadecimal : ∀ digits, cs = '0' :: 'x' :: digits → Unsigned digits

theorem number?_minus (hcs : Unmarked cs) (h : number? [] cs = some w) :
    ∃ v, number? ['-'] cs = some v ∧ UnaryOp.neg.apply w = .ok v := by
  have hlast : Unsigned cs.dropLast := hcs.decimal.cut (List.dropLast_prefix cs)
  unfold number? at h ⊢
  dsimp only at h ⊢
  split
  next digits => exact int_minus ((hcs.hexadecimal digits rfl).cut (trimEnd_isPrefix _ _)) h
  next hhex =>
    split at h
    next digits => exact absurd rfl (hhex digits)
    next =>
      split
      next hl => rw [if_pos hl] at h; exact int_minus hlast h
      next hl =>
        rw [if_neg hl] at h
        split
        next hf => rw [if_pos hf] at h; exact float_minus hlast h
        next hf =>
          rw [if_neg hf] at h
          split
          next hp => rw [if_pos hp] at h; exact float_minus hcs.decimal h
          next hp => rw [if_neg hp] at h; exact int_minus hcs.decimal h

theorem number_minus {l : Lexeme} (hl : Unmarked (l.chars.map Char.toLower)) (h : number l false = .ok w) :
    ∃ v, number l true = .ok v ∧ UnaryOp.neg.apply w = .ok v := by
  unfold number at h ⊢
  dsimp only at h ⊢
  split at h
  next hw =>
    cases h
    obtain ⟨v, hv, hneg⟩ := number?_minus hl hw
    exact ⟨v, by simp only [if_true, hv], hneg⟩
  next => cases h

end Literal

/-! ## Scanned numbers -/

namespace Scan

variable {cs rest : List Char}

theorem symbols_ne_number : ∀ e ∈ symbols, e.2 ≠ .number := by decide

theorem token_number {after : Option Char} {pos : Nat} (h : token after pos cs = .ok (.number, rest)) :
    ∃ c more, cs = c :: more ∧ startsNumber c more = true ∧ number cs = .ok rest := by
  unfold token at h
  split at h
  case h_1 => cases h
  case h_2 c more =>
    split at h
    case isTrue => cases h
    split at h
    case isTrue hnum =>
      split at h
      case h_1 hn => cases h; exact ⟨c, more, rfl, hnum, hn⟩
      case h_2 => cases h
    split at h
    case isTrue => split at h <;> cases h
    split at h
    case h_1 d _ =>
      cases hg : groupEnd after ⟨d, pos⟩ [] (pos + c.utf8Size) more with
      | error e => rw [hg] at h; cases h
      | ok found => rw [hg] at h; cases h
    split at h
    case isTrue => cases h
    split at h
    case h_1 hs =>
      cases h
      obtain ⟨text, hmem, -⟩ := eq_of_symbol? hs
      exact absurd rfl (symbols_ne_number _ hmem)
    case h_2 => cases h

theorem toLower_cases (c : Char) : c.toLower = c ∨ (65 ≤ c.toNat ∧ c.toNat ≤ 90 ∧ c.toLower.toNat = c.toNat + 32) := by
  unfold Char.toLower
  split
  next h =>
    have hle : c.val.toNat ≤ 90 := h.2
    refine .inr ⟨h.1, h.2, ?_⟩
    change (c.val + 32).toNat = c.val.toNat + 32
    rw [UInt32.toNat_add]
    change (c.val.toNat + 32) % 4294967296 = c.val.toNat + 32
    omega
  next => exact .inl rfl

theorem eq_of_toLower {c d : Char} (hd : d.toNat < 97) (h : c.toLower = d) : c = d := by
  obtain hc | ⟨hle, -, hc⟩ := toLower_cases c
  · exact hc.symm.trans h
  · rw [h] at hc
    omega

theorem isHexMark_of_toLower {c : Char} (h : c.toLower = 'x') : isHexMark c = true := by
  obtain hc | ⟨-, -, hc⟩ := toLower_cases c
  · rw [← hc, h]
    rfl
  · rw [h] at hc
    have hX : c = 'X' := Char.toNat_inj.mp (Nat.add_right_cancel (hc.symm : c.toNat + 32 = 88 + 32))
    rw [hX]
    rfl

theorem unsigned_toLower {c : Char} (h : c ≠ '-' ∧ c ≠ '+') (cs : List Char) :
    Number.Unsigned ((c :: cs).map Char.toLower) := by
  rintro _ ⟨⟩
  exact ⟨fun heq => h.1 (eq_of_toLower (by decide) heq), fun heq => h.2 (eq_of_toLower (by decide) heq)⟩

theorem unmarked_of_number {c : Char} (hs : startsNumber c cs = true) (h : number (c :: cs) = .ok []) :
    Literal.Unmarked ((c :: cs).map Char.toLower) := by
  constructor
  case decimal =>
    refine unsigned_toLower ⟨?_, ?_⟩ cs
    all_goals
      rintro rfl
      cases hs
  case hexadecimal =>
    intro digits heq
    cases cs with
    | nil => simp at heq
    | cons x ds =>
      simp only [List.map_cons, List.cons.injEq] at heq
      obtain ⟨hc, hx, rfl⟩ := heq
      obtain rfl := eq_of_toLower (by decide) hc
      rw [number_of_hex (isHexMark_of_toLower hx)] at h
      split at h
      next hd =>
        cases ds with
        | nil => cases hd
        | cons d ds =>
          refine unsigned_toLower ⟨?_, ?_⟩ ds
          all_goals
            rintro rfl
            cases hd
      next => cases h

end Scan

theorem Cursor.unmarked_of_next {c c' : Cursor} {l : Lexeme} (h : c.next = .ok (l, c')) (hk : l.kind = .number) :
    Literal.Unmarked (l.chars.map Char.toLower) := by
  obtain ⟨c₁, -, hl⟩ := next_eq h
  have ht := token_of_lexeme hl
  have hp := passes_of_lexeme hl
  rw [hk, hp.rest, List.nil_append] at ht
  obtain ⟨ch, more, hcs, hs, hn⟩ := Scan.token_number ht
  cases hchars : l.chars with
  | nil =>
    have hlt := Scan.length_of_number hs (hcs ▸ hn)
    rw [← hcs, hchars] at hlt
    exact absurd hlt (Nat.lt_irrefl _)
  | cons ch' chars =>
    rw [hchars] at hcs hn
    injection hcs with hch hmore
    subst hch hmore
    exact Scan.unmarked_of_number (Scan.startsNumber_cut (y := []) hs hn) (Scan.number_cut (y := []) hn)

end PathScript
