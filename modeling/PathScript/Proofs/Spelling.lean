import PathScript.Compile.Names
import PathScript.Proofs.Lexed
import PathScript.Proofs.Prepared

/-! # Spelling of paths

Written down as words, the segments of a path can be told from each other by
their first words, so the words of a path determine the forms of its segments.
Two paths behind `this` are different: `this.null` names a member, while the
path of the literal `null` put behind `this` has the same words. -/

namespace PathScript

open Segment (Shape)

/-! ## Words of segments -/

/-- Names that stand for a value. -/
def literalWords : List String := ["true", "false", "null", "nil", "empty"]

/-- The words of the first segment of a path. -/
inductive HeadWords : Shape → List Word → Prop where
  | root {name : List Char} (free : isReserved (String.ofList name) = false) :
      HeadWords (.root (String.ofList name)) [(.ident, name)]
  | this {name : List Char} (word : String.ofList name = "this") : HeadWords .this [(.ident, name)]
  | literal {name : List Char} (word : String.ofList name ∈ literalWords) : HeadWords .base [(.ident, name)]
  /-- A number, a string or a group. -/
  | closed {kind : TokenKind} {chars : List Char} (h : kind = .number ∨ kind = .str ∨ ∃ d, kind = .group d) :
      HeadWords .base [(kind, chars)]
  | call {name args : List Char} (free : isReserved (String.ofList name) = false) :
      HeadWords .base [(.ident, name), (.group .paren, args)]
  | creation {name first args : List Char} {more : List Word} (word : String.ofList name = "new")
      (dotted : ∀ w ∈ more, w.1 = .ident ∨ w.1 = .dot) :
      HeadWords .base ((.ident, name) :: (.ident, first) :: (more ++ [(.group .paren, args)]))
  | withItems {name target body : List Char} (word : String.ofList name = "with") :
      HeadWords .base [(.ident, name), (.group .paren, target), (.group .brace, body)]

/-- The words of the segments behind the first. -/
inductive StepsWords : List Shape → List Word → Prop where
  | nil : StepsWords [] []
  | property {kind : TokenKind} {point name : List Char} {shape : List Shape} {words : List Word}
      (isPoint : kind = .dot ∨ kind = .safeDot) (h : StepsWords shape words) :
      StepsWords (.property (String.ofList name) (kind == .safeDot) :: shape) ((kind, point) :: (.ident, name) :: words)
  | method {kind : TokenKind} {point name args : List Char} {shape : List Shape} {words : List Word}
      (isPoint : kind = .dot ∨ kind = .safeDot) (h : StepsWords shape words) :
      StepsWords (.method (String.ofList name) (kind == .safeDot) :: shape)
        ((kind, point) :: (.ident, name) :: (.group .paren, args) :: words)
  | index {chars : List Char} {shape : List Shape} {words : List Word} (h : StepsWords shape words) :
      StepsWords (.index false :: shape) ((.group .bracket, chars) :: words)

/-- The words of a path. -/
inductive PathWords : List Shape → List Word → Prop where
  | mk {s : Shape} {shape : List Shape} {head words : List Word} (first : HeadWords s head)
      (steps : StepsWords shape words) : PathWords (s :: shape) (head ++ words)

variable {text name : String} {s : Shape} {shape shape' steps : List Shape} {words words' : List Word}

namespace StepsWords

theorem append (h : StepsWords shape words) (h' : StepsWords shape' words') :
    StepsWords (shape ++ shape') (words ++ words') := by
  induction h with
  | nil => exact h'
  | property isPoint _ ih => exact .property isPoint ih
  | method isPoint _ ih => exact .method isPoint ih
  | index _ ih => exact .index ih

theorem head_kind {kind : TokenKind} {chars : List Char} (h : StepsWords shape ((kind, chars) :: words)) :
    kind = .dot ∨ kind = .safeDot ∨ kind = .group .bracket := by
  cases h with
  | property isPoint _ => exact isPoint.imp_right .inl
  | method isPoint _ => exact isPoint.imp_right .inl
  | index _ => exact .inr (.inr rfl)

theorem unique (h : StepsWords shape words) (h' : StepsWords shape' words) : shape = shape' := by
  induction h generalizing shape' with
  | nil => cases h'; rfl
  | property isPoint h ih =>
    cases h' with
    | property _ h' => rw [ih h']
    | method _ h' => rcases h.head_kind with hk | hk | hk <;> cases hk
    | index _ => rcases isPoint with hk | hk <;> cases hk
  | method isPoint h ih =>
    cases h' with
    | property _ h' => rcases h'.head_kind with hk | hk | hk <;> cases hk
    | method _ h' => rw [ih h']
    | index _ => rcases isPoint with hk | hk <;> cases hk
  | index h ih =>
    cases h' with
    | property isPoint _ => rcases isPoint with hk | hk <;> cases hk
    | method isPoint _ => rcases isPoint with hk | hk <;> cases hk
    | index h' => rw [ih h']

theorem mem (h : StepsWords shape words) (hs : s ∈ shape) : s ≠ .base ∧ ∀ name, s ≠ .root name := by
  induction h with
  | nil => cases hs
  | property _ _ ih | method _ _ ih | index _ ih =>
    rcases List.mem_cons.mp hs with rfl | hs
    · exact ⟨nofun, nofun⟩
    · exact ih hs

end StepsWords

/-! ## Forms from words -/

/-- The form of the first segment and the words of the others, from the words of a path. -/
def headOf : List Word → Shape × List Word
  | [] => (.base, [])
  | (kind, chars) :: rest =>
    let name := String.ofList chars
    if kind ≠ .ident then (.base, rest)
    else if name = "this" then (.this, rest)
    else if name ∈ literalWords then (.base, rest)
    else if name = "new" then (.base, (rest.dropWhile (·.1 != .group .paren)).tail)
    else if name = "with" then (.base, rest.drop 2)
    else if rest.head?.map (·.1) = some (.group .paren) then (.base, rest.tail)
    else (.root name, rest)

theorem ne_of_free {word : String} (free : isReserved name = false) (h : isReserved word = true) : name ≠ word := by
  rintro rfl
  rw [h] at free
  cases free

theorem not_literal_of_free (free : isReserved name = false) : name ∉ literalWords := by
  intro h
  have : ∀ w ∈ literalWords, isReserved w = true := by decide
  exact ne_of_free free (this name h) rfl

theorem headOf_append {head : List Word} (h : HeadWords s head)
    (hw : StepsWords shape words) : headOf (head ++ words) = (s, words) := by
  have notParen : words.head?.map (·.1) ≠ some (.group .paren) := by
    cases words with
    | nil => simp
    | cons w words =>
      intro heq
      have hk : w.1 = .group .paren := Option.some.inj heq
      rcases hw.head_kind with h | h | h <;> rw [hk] at h <;> cases h
  cases h with
  | root free =>
    simp [headOf, ne_of_free free (by decide : isReserved "this" = true),
      ne_of_free free (by decide : isReserved "new" = true),
      ne_of_free free (by decide : isReserved "with" = true), not_literal_of_free free, notParen]
  | this word => simp [headOf, word]
  | @literal name word =>
    have hthis : String.ofList name ≠ "this" := fun heq => by
      rw [heq] at word
      revert word
      decide
    simp [headOf, hthis, word]
  | closed h => rcases h with rfl | rfl | ⟨d, rfl⟩ <;> simp [headOf]
  | call free =>
    simp [headOf, ne_of_free free (by decide : isReserved "this" = true),
      ne_of_free free (by decide : isReserved "new" = true),
      ne_of_free free (by decide : isReserved "with" = true), not_literal_of_free free]
  | @creation name first args more word dotted =>
    have hlit : "new" ∉ literalWords := by decide
    have hmore : (more ++ (.group .paren, args) :: words).dropWhile (·.1 != .group .paren) =
        (.group .paren, args) :: words :=
      (List.dropWhile_append_of_pos fun w hw => by rcases dotted w hw with h | h <;> simp [h]).trans (by simp)
    simp [headOf, word, hlit, hmore]
  | withItems word =>
    have hlit : "with" ∉ literalWords := by decide
    simp [headOf, word, hlit]

namespace PathWords

theorem headOf_eq (h : PathWords shape words) :
    ∃ steps, shape = (headOf words).1 :: steps ∧ StepsWords steps (headOf words).2 := by
  obtain ⟨first, steps⟩ := h
  rw [headOf_append first steps]
  exact ⟨_, rfl, steps⟩

/-- The words of a path determine the forms of its segments. -/
theorem unique (h : PathWords shape words) (h' : PathWords shape' words) : shape = shape' := by
  obtain ⟨steps, rfl, hs⟩ := h.headOf_eq
  obtain ⟨steps', rfl, hs'⟩ := h'.headOf_eq
  rw [hs.unique hs']

theorem ne_nil (h : PathWords shape words) : words ≠ [] := by
  obtain ⟨first, steps⟩ := h
  cases first <;> simp

end PathWords

/-! ## Behind `this` -/

/-- A path of the words `this`, a point and those of another path names the member that the other path starts with;
it is the other path put behind `this`, unless that starts with an expression. -/
theorem PathWords.behind_this {name point : List Char}
    (hthis : String.ofList name = "this") (h : PathWords shape ((.ident, name) :: (.dot, point) :: words))
    (hs : PathWords (s :: steps) words) (hne : s ≠ .this) :
    ∃ s', shape = .this :: s' :: steps ∧ s' ≠ .base ∧ (s ≠ .base → s' = s.rebased) := by
  obtain ⟨more, rfl, hmore⟩ := h.headOf_eq
  simp only [headOf, hthis, ne_eq, not_true_eq_false, if_false, if_true] at hmore ⊢
  -- The two readings can differ only in where the steps begin, and no step begins like this.
  have notStep : ∀ {shape kind chars words}, StepsWords shape ((kind, chars) :: words) →
      kind ≠ .ident ∧ kind ≠ .group .paren ∧ kind ≠ .group .brace := by
    intro shape kind chars words hw
    rcases hw.head_kind with rfl | rfl | rfl <;> simp
  generalize hwords : words = w at hs
  obtain ⟨first, hsteps⟩ := hs
  cases hmore with
  | property isPoint hw =>
    cases first with
    | root free =>
      cases hwords
      cases StepsWords.unique hw hsteps
      exact ⟨_, rfl, by simp, fun _ => rfl⟩
    | this word => exact absurd rfl hne
    | literal word =>
      cases hwords
      cases StepsWords.unique hw hsteps
      exact ⟨_, rfl, by simp, fun h => absurd rfl h⟩
    | closed hk =>
      cases hwords
      simp at hk
    | call free | withItems word =>
      cases hwords
      exact absurd rfl (notStep hw).2.1
    | creation word dotted =>
      cases hwords
      exact absurd rfl (notStep hw).1
  | method isPoint hw =>
    cases first with
    | root free | literal word =>
      cases hwords
      exact absurd rfl (notStep hsteps).2.1
    | this word => exact absurd rfl hne
    | closed hk =>
      cases hwords
      simp at hk
    | call free =>
      cases hwords
      cases StepsWords.unique hw hsteps
      exact ⟨_, rfl, by simp, fun h => absurd rfl h⟩
    | creation word dotted => cases hwords
    | withItems word =>
      cases hwords
      exact absurd rfl (notStep hw).2.2

/-! ## Texts -/

/-- A text that is read, wherever it stands, as the words of a path. -/
def Spelled (text : String) (shape : List Shape) : Prop :=
  ∃ words, PathWords shape words ∧ ∀ pos, (⟨pos, text.toList, none⟩ : Cursor).tokens.Spells words

theorem Spelled.unique (h : Spelled text shape) (h' : Spelled text shape') : shape = shape' := by
  obtain ⟨words, hw, hs⟩ := h
  obtain ⟨words', hw', hs'⟩ := h'
  cases (hs 0).unique (hs' 0)
  exact hw.unique hw'

theorem Spelled.ne_empty (h : Spelled text shape) : text ≠ "" := by
  rintro rfl
  obtain ⟨words, hw, hs⟩ := h
  have hnil : (⟨0, "".toList, none⟩ : Cursor).tokens.Spells [] := by
    rw [show "".toList = [] from rfl, Cursor.tokens_of_nil]
    exact .eof 0
  exact hw.ne_nil ((hs 0).unique hnil)

namespace Scan

variable {cs : List Char}

theorem token_this (after : Option Char) (pos : Nat) :
    token after pos ('t' :: 'h' :: 'i' :: 's' :: '.' :: cs) = .ok (.ident, '.' :: cs) := by
  unfold token
  dsimp only
  rw [if_pos (by decide)]
  iterate 4 rw [List.dropWhile_cons_of_pos (by decide)]
  rw [List.dropWhile_cons_of_neg (by decide)]

theorem token_point (h : startsWith Char.isDigit cs = false) (after : Option Char) (pos : Nat) :
    token after pos ('.' :: cs) = .ok (.dot, cs) := by
  unfold token
  dsimp only
  rw [if_neg (by decide), if_neg (by simp [startsNumber, h]), if_neg (by decide)]
  rfl

theorem token_point_digit (h : startsWith Char.isDigit cs = true) {after : Option Char} {pos : Nat}
    {kind : TokenKind} {rest : List Char} (ht : token after pos ('.' :: cs) = .ok (kind, rest)) : kind = .number := by
  unfold token at ht
  dsimp only at ht
  rw [if_neg (by decide), if_pos (by simp [startsNumber, h])] at ht
  split at ht
  next => cases ht; rfl
  next => cases ht

end Scan

namespace Cursor

variable {cs : List Char}

/-- Of a text that starts with `this` and a point, the first word is `this`. -/
theorem spells_this (h : (⟨0, "this".toList ++ '.' :: cs, none⟩ : Cursor).tokens.Spells words) :
    ∃ more, words = (.ident, "this".toList) :: more ∧ (⟨4, '.' :: cs, none⟩ : Cursor).tokens.Spells more := by
  obtain ⟨l, c', hn, hw⟩ := next_of_spells h
  rw [next_eq_lexeme rfl (by decide) (by decide)] at hn
  cases hn.symm.trans (lexeme_of_token (Scan.token_this none 0) rfl)
  rcases hw with ⟨-, hk⟩ | ⟨more, rfl, hmore⟩
  · cases hk
  · exact ⟨more, rfl, hmore⟩

/-- The word of a point is followed by those of the text behind it, unless that starts with a digit. -/
theorem spells_point (hd : Scan.startsWith Char.isDigit cs = false)
    (h : (⟨4, '.' :: cs, none⟩ : Cursor).tokens.Spells words) :
    ∃ more, words = (.dot, ['.']) :: more ∧ (⟨5, cs, none⟩ : Cursor).tokens.Spells more := by
  obtain ⟨l, c', hn, hw⟩ := next_of_spells h
  rw [next_eq_lexeme rfl (by decide) (by decide)] at hn
  have ht : Scan.token none 4 (['.'] ++ cs) = .ok (.dot, cs) := Scan.token_point hd none 4
  cases hn.symm.trans (lexeme_of_token ht (show _ = ['.'] ++ cs from rfl))
  rcases hw with ⟨-, hk⟩ | ⟨more, rfl, hmore⟩
  · cases hk
  · exact ⟨more, rfl, hmore⟩

/-- A point before a digit is part of a number. -/
theorem spells_point_digit (hd : Scan.startsWith Char.isDigit cs = true)
    (h : (⟨4, '.' :: cs, none⟩ : Cursor).tokens.Spells words) : ∃ chars more, words = (.number, chars) :: more := by
  obtain ⟨l, c', hn, hw⟩ := next_of_spells h
  rw [next_eq_lexeme rfl (by decide) (by decide)] at hn
  have hk : l.kind = .number := Scan.token_point_digit hd (token_of_lexeme hn)
  rw [hk] at hw
  rcases hw with ⟨-, hk⟩ | ⟨more, rfl, -⟩
  · cases hk
  · exact ⟨l.chars, more, rfl⟩

end Cursor

/-- A text that spells a path behind `this` and a point spells, without them, no other path than the one it names,
unless it starts with an expression. -/
theorem Spelled.behind_this (h : Spelled ("this." ++ text) shape) (hs : Spelled text (s :: steps)) (hne : s ≠ .this) :
    ∃ s', shape = .this :: s' :: steps ∧ s' ≠ .base ∧ (s ≠ .base → s' = s.rebased) := by
  obtain ⟨words, hw, hspells⟩ := h
  obtain ⟨words', hw', hspells'⟩ := hs
  have htext : ("this." ++ text).toList = "this".toList ++ '.' :: text.toList := by simp
  have hthis := hspells 0
  rw [htext] at hthis
  obtain ⟨more, rfl, hpoint⟩ := Cursor.spells_this hthis
  cases hd : Scan.startsWith Char.isDigit text.toList with
  | true =>
    obtain ⟨chars, more, rfl⟩ := Cursor.spells_point_digit hd hpoint
    obtain ⟨rest, -, hrest⟩ := hw.headOf_eq
    simp only [headOf] at hrest
    rcases hrest.head_kind with hk | hk | hk <;> cases hk
  | false =>
    obtain ⟨more, rfl, hmore⟩ := Cursor.spells_point hd hpoint
    cases hmore.unique (hspells' 5)
    exact hw.behind_this (by decide) hw' hne

/-! ## Forms of texts -/

/-- The texts that paths have, and the forms of their segments: nothing, what was read, and what was read and then put
behind `this`. -/
inductive Written : String → List Shape → Prop where
  | nothing : Written "" []
  | plain {text : String} {shape : List Shape} (h : Spelled text shape) : Written text shape
  | behindThis {text : String} {s : Shape} {steps : List Shape} (h : Spelled text (s :: steps)) (hne : s ≠ .this) :
      Written ("this." ++ text) (.this :: s.rebased :: steps)

/-- Forms that agree but for the second, and there too if it is an expression in both or in neither. -/
structure AlmostEqual (shape shape' : List Shape) : Prop where
  length : shape.length = shape'.length
  others : ∀ i, i ≠ 1 → shape[i]? = shape'[i]?
  eq_iff : shape = shape' ↔ (shape[1]? = some .base ↔ shape'[1]? = some .base)

namespace AlmostEqual

theorem refl (shape : List Shape) : AlmostEqual shape shape := ⟨rfl, fun _ _ => rfl, by simp⟩

theorem symm (h : AlmostEqual shape shape') : AlmostEqual shape' shape :=
  ⟨h.length.symm, fun i hi => (h.others i hi).symm, eq_comm.trans (h.eq_iff.trans Iff.comm)⟩

/-- Two forms of which only one has an expression behind the first segment. -/
theorem of_second {t : Shape} (h : s = t ∨ t = .base ∧ s ≠ .base) :
    AlmostEqual (.this :: s :: shape) (.this :: t :: shape) := by
  rcases h with rfl | ⟨rfl, hs⟩
  · exact refl _
  · refine ⟨rfl, fun i hi => ?_, by simp [hs]⟩
    match i, hi with
    | 0, _ => rfl
    | i + 2, _ => rfl

end AlmostEqual

/-- The text of a path determines the forms of its segments, but for the second. -/
theorem Written.almostEqual (h : Written text shape) (h' : Written text shape') : AlmostEqual shape shape' := by
  have plainBehind : ∀ {t : String} {s : Shape} {shape steps : List Shape}, Spelled ("this." ++ t) shape →
      Spelled t (s :: steps) → s ≠ .this → AlmostEqual shape (.this :: s.rebased :: steps) := by
    intro t s shape steps hp hs hne
    obtain ⟨s', rfl, hbase, heq⟩ := hp.behind_this hs hne
    refine .of_second ?_
    by_cases hsb : s = .base
    · subst hsb
      exact .inr ⟨rfl, hbase⟩
    · exact .inl (heq hsb)
  cases h with
  | nothing =>
    generalize hempty : "" = text at h'
    cases h' with
    | nothing => exact .refl _
    | plain hs => exact absurd hempty.symm hs.ne_empty
    | behindThis hs hne => exact absurd (congrArg String.toList hempty) (by simp)
  | plain hp =>
    cases h' with
    | nothing => exact absurd rfl hp.ne_empty
    | plain hp' => exact hp.unique hp' ▸ .refl _
    | behindThis hs hne => exact plainBehind hp hs hne
  | @behindThis t s steps hs hne =>
    generalize htext : "this." ++ t = text at h'
    cases h' with
    | nothing => exact absurd (congrArg String.toList htext) (by simp)
    | plain hp => exact (plainBehind (htext ▸ hp) hs hne).symm
    | behindThis hs' hne' =>
      have : t = _ := String.append_right_inj "this." |>.mp htext
      subst this
      cases hs.unique hs'
      exact .refl _

/-! ## Paths -/

theorem spelled_this : Spelled "this" [.this] := by
  refine ⟨[(.ident, "this".toList)], .mk (.this rfl) .nil, fun pos => ?_⟩
  have ht : Scan.token none pos ("this".toList ++ []) = .ok (.ident, []) := rfl
  have hn : (⟨pos, "this".toList, none⟩ : Cursor).next = .ok _ :=
    (Cursor.next_eq_lexeme rfl (by decide) (by decide)).trans (Cursor.lexeme_of_token ht (List.append_nil _).symm)
  obtain ⟨inner, htokens⟩ := Cursor.tokens_of_next hn nofun (Nat.zero_lt_succ 3)
  rw [htokens, Cursor.tokens_of_nil]
  exact .cons (.eof _)

/-- Only the first segment can be an expression. -/
theorem Spelled.second_ne_base (h : Spelled text shape) : shape[1]? ≠ some .base := by
  obtain ⟨words, hw, -⟩ := h
  obtain ⟨steps, rfl, hsteps⟩ := hw.headOf_eq
  intro hbase
  exact (hsteps.mem (List.mem_of_getElem? (i := 0) hbase)).1 rfl

theorem Spelled.isReserved_root (h : Spelled text shape) (hroot : .root name ∈ shape) : isReserved name = false := by
  obtain ⟨words, ⟨first, steps⟩, -⟩ := h
  rcases List.mem_cons.mp hroot with rfl | hmem
  · cases first with
    | root free => exact free
  · exact absurd rfl ((steps.mem hmem).2 name)

/-- Nothing is put in front of a path that starts with a name. -/
theorem Written.second_ne_base_of_root (h : Written text shape)
    (hroot : shape[0]? = some (.root name)) : shape[1]? ≠ some .base := by
  cases h with
  | nothing => cases hroot
  | plain h => exact h.second_ne_base
  | behindThis _ _ => cases hroot

/-- Segments behind the first are not changed by what comes before them. -/
theorem Spelled.map_rebased (h : Spelled text (s :: steps)) : steps.map Shape.rebased = steps := by
  obtain ⟨words, hw, -⟩ := h
  obtain ⟨more, heq, hsteps⟩ := hw.headOf_eq
  cases heq
  refine (List.map_congr_left fun t ht => ?_).trans (List.map_id _)
  cases t with
  | root name => exact absurd rfl ((hsteps.mem ht).2 name)
  | _ => rfl

namespace Path

variable {p : Path}

/-- Every segment of a path has its cut: another place in the text than those before it, the last one at the end. -/
structure WellCut (p : Path) : Prop where
  length : p.cuts.length = p.segments.length
  increasing : p.cuts.Pairwise (· < ·)
  boundary : ∀ c ∈ p.cuts, Text.isBoundary c p.text.toList = true
  last : p.cuts.getLast? = some (Text.byteLength p.text.toList)

/-- A path that was read: its text spells its segments, and the text up to any of them spells the first ones. -/
structure Spelled (p : Path) : Prop where
  whole : PathScript.Spelled p.text p.shape
  first : ∀ n, 0 < n → PathScript.Spelled (p.take n).text (p.take n).shape
  wellCut : p.WellCut

theorem shape_take (p : Path) (n : Nat) : (p.take n).shape = p.shape.take n := by
  simp [shape, take, List.map_take]

theorem shape_rebased (p : Path) : p.rebased.shape = .this :: p.shape.map Shape.rebased := by
  simp only [shape, rebased, List.map_cons, List.map_map, Segment.shape, List.cons.injEq, true_and]
  exact List.map_congr_left fun s _ => s.shape_rebased

/-- The end of the first segments in the text. -/
def cut (p : Path) (n : Nat) : Nat :=
  if n = 0 then 0 else p.cuts[n - 1]?.getD (Text.byteLength p.text.toList)

theorem text_take (p : Path) (n : Nat) : (p.take n).text =
    if Text.isBoundary (p.cut (min n p.segments.length)) p.text.toList
    then String.ofList (Text.takeBytes (p.cut (min n p.segments.length)) p.text.toList) else p.text := rfl

theorem takeBytes_zero (cs : List Char) : Text.takeBytes 0 cs = [] := by
  have := Text.takeBytes_append [] cs
  simpa using this

theorem text_take_zero (p : Path) : (p.take 0).text = "" := by
  rw [text_take, Nat.zero_min]
  simp [cut, Text.isBoundary, takeBytes_zero]

theorem toList_rebased (p : Path) : p.rebased.text.toList = "this.".toList ++ p.text.toList := by
  simp [rebased]

theorem text_rebased_take_one (p : Path) : (p.rebased.take 1).text = "this" := by
  have hcut : p.rebased.cut (min 1 p.rebased.segments.length) = Text.byteLength "this".toList := by
    simp [rebased, cut]
    decide
  have htext : p.rebased.text.toList = "this".toList ++ ('.' :: p.text.toList) := by
    rw [toList_rebased]
    rfl
  rw [text_take, hcut, htext, Text.isBoundary_append, Text.takeBytes_append]
  rfl

theorem text_rebased_take (hne : p.segments ≠ []) (n : Nat) :
    (p.rebased.take (n + 2)).text = "this." ++ (p.take (n + 1)).text := by
  have hlen : 0 < p.segments.length := List.length_pos_iff.mpr hne
  have hcut : p.rebased.cut (min (n + 2) p.rebased.segments.length) =
      p.cut (min (n + 1) p.segments.length) + Text.byteLength "this.".toList := by
    obtain ⟨k, hk⟩ : ∃ k, min (n + 1) p.segments.length = k + 1 := ⟨min (n + 1) p.segments.length - 1, by omega⟩
    have hk' : min (n + 2) p.rebased.segments.length = k + 2 := by
      simp only [rebased, List.length_cons, List.length_map]
      omega
    have hlast : p.rebased.cuts[k + 1]? = p.cuts[k]?.map (· + 5) := by simp [rebased]
    have hbytes : Text.byteLength "this.".toList = 5 := by decide
    simp only [hk, hk', cut, Nat.add_one_ne_zero, if_false, Nat.add_sub_cancel, toList_rebased,
      Text.byteLength_append, hbytes]
    rw [show k + 2 - 1 = k + 1 from rfl, hlast]
    cases p.cuts[k]? with
    | some n => rfl
    | none => exact Nat.add_comm 5 _
  rw [text_take, text_take, hcut, toList_rebased, Text.isBoundary_add, Text.takeBytes_add]
  split
  · rw [String.ofList_append]; rfl
  · rfl

theorem shape_take_zero (p : Path) : (p.take 0).shape = [] := by
  rw [shape_take, List.take_zero]

namespace Spelled

theorem written_take (h : p.Spelled) (n : Nat) : Written (p.take n).text (p.take n).shape := by
  cases n with
  | zero =>
    rw [text_take_zero, shape_take_zero]
    exact .nothing
  | succ n => exact .plain (h.first _ n.succ_pos)

theorem exists_cons (h : p.Spelled) : ∃ s steps, p.shape = s :: steps := by
  obtain ⟨words, hw, -⟩ := h.whole
  obtain ⟨steps, hs, -⟩ := hw.headOf_eq
  exact ⟨_, steps, hs⟩

theorem written_rebased (h : p.Spelled) (hs : p.shape = s :: steps) (hne : s ≠ .this) :
    Written p.rebased.text p.rebased.shape := by
  have hw := h.whole
  rw [hs] at hw
  rw [shape_rebased, hs, List.map_cons, hw.map_rebased]
  exact .behindThis hw hne

theorem written_rebased_take (h : p.Spelled) (hs : p.shape = s :: steps) (hne : s ≠ .this) (n : Nat) :
    Written (p.rebased.take n).text (p.rebased.take n).shape := by
  match n with
  | 0 =>
    rw [text_take_zero, shape_take_zero]
    exact .nothing
  | 1 =>
    rw [text_rebased_take_one, shape_take, shape_rebased]
    exact .plain spelled_this
  | n + 2 =>
    have hsegs : p.segments ≠ [] := by
      intro hnil
      simp [shape, hnil] at hs
    have hw := h.first (n + 1) n.succ_pos
    rw [shape_take, hs, List.take_succ_cons] at hw
    rw [text_rebased_take hsegs, shape_take, shape_rebased, hs, List.map_cons, List.take_succ_cons,
      List.take_succ_cons, ← List.map_take, hw.map_rebased]
    exact .behindThis hw hne

end Spelled

end Path

/-! ## Paths from tokens -/

theorem HeadWords.isPathPart (h : HeadWords s words) : ∀ w ∈ words, w.1.isPathPart = true := by
  cases h with
  | closed hk => rcases hk with rfl | rfl | ⟨d, rfl⟩ <;> simp [TokenKind.isPathPart]
  | creation word dotted =>
    intro w hw
    simp only [List.mem_cons, List.mem_append, List.not_mem_nil, or_false] at hw
    rcases hw with rfl | rfl | hw | rfl
    · rfl
    · rfl
    · rcases dotted w hw with h | h <;> rw [h] <;> rfl
    · rfl
  | _ => simp [TokenKind.isPathPart]

theorem StepsWords.isPathPart (h : StepsWords shape words) : ∀ w ∈ words, w.1.isPathPart = true := by
  induction h with
  | nil => simp
  | property isPoint _ ih | method isPoint _ ih =>
    rcases isPoint with rfl | rfl <;> simpa [TokenKind.isPathPart] using ih
  | index _ ih => simpa [TokenKind.isPathPart] using ih

theorem PathWords.isPathPart (h : PathWords shape words) : ∀ w ∈ words, w.1.isPathPart = true := by
  obtain ⟨first, steps⟩ := h
  exact fun w hw => (List.mem_append.mp hw).elim (first.isPathPart w) (steps.isPathPart w)

/-- The tokens of a segment, and where they end. -/
structure SegmentTokens (item : Segment × Nat) (tokens : List Token) : Prop where
  stop : tokens.getLast?.map (·.span.stop) = some item.2

/-- The tokens of a segment behind the first. -/
structure StepTokens (item : Segment × Nat) (tokens : List Token) : Prop extends SegmentTokens item tokens where
  words : StepsWords [item.1.shape] (tokens.map Token.word)

theorem StepsWords.of_tokens {items : List (Segment × Nat)} {parts : List (List Token)}
    (h : List.Forall₂ StepTokens items parts) : StepsWords (items.map (·.1.shape)) (parts.flatten.map Token.word) := by
  induction h with
  | nil => exact .nil
  | cons hd _ ih =>
    rw [List.flatten_cons, List.map_append]
    exact hd.words.append ih

/-- The last of the tokens of the first segments ends where the last of them does. -/
theorem getLast?_flatten_take {items : List (Segment × Nat)} {parts : List (List Token)}
    (h : List.Forall₂ SegmentTokens items parts) {j : Nat} (hj : j < items.length) :
    ∃ t, ((parts.take (j + 1)).flatten).getLast? = some t ∧ (items[j]?).map (·.2) = some t.span.stop := by
  have hj' : j < parts.length := h.length_eq ▸ hj
  obtain ⟨t, ht, hstop⟩ := Option.map_eq_some_iff.mp (h.get hj hj').stop
  rw [List.get_eq_getElem] at ht hstop
  refine ⟨t, ?_, ?_⟩
  · rw [List.take_succ_eq_append_getElem hj', List.flatten_append, List.getLast?_append]
    simp [ht]
  · simp [List.getElem?_eq_getElem hj, hstop]

section FromTokens

variable {source : List Char} {start stop : Nat} {head : Segment} {items : List (Segment × Nat)}
  {tokens : List Token} {parts : List (List Token)} {rest : Tokens} {first : Token}
  (hl : (Tokens.prepend (tokens ++ parts.flatten) rest).Lexed source) (hclean : rest.Clean)
  (hhead : HeadWords head.shape (tokens.map Token.word)) (hfirst : tokens.head? = some first)
  (hstop : tokens.getLast?.map (·.span.stop) = some stop) (hitems : List.Forall₂ StepTokens items parts)
include hl hclean hhead hfirst hstop hitems

/-- The text of the first segments that were read, and what of the whole text is behind it. -/
theorem exists_text_of_tokens {j finish : Nat} (hj : j ≤ items.length)
    (hfinish : ((head, stop) :: items)[items.length]?.map (·.2) = some finish) : ∃ text more,
    Text.slice source first.span.start finish = text ++ more ∧
      ((head, stop) :: items)[j]?.map (·.2) = some (first.span.start + Text.byteLength text) ∧
      finish = first.span.start + Text.byteLength (text ++ more) ∧
      Spelled (String.ofList text) (head.shape :: (items.map (·.1.shape)).take j) := by
  have hsegs : List.Forall₂ SegmentTokens ((head, stop) :: items) (tokens :: parts) :=
    .cons ⟨hstop⟩ (hitems.imp fun _ _ h => h.toSegmentTokens)
  obtain ⟨t, ht, htstop⟩ := getLast?_flatten_take hsegs (Nat.lt_succ_of_le hj)
  obtain ⟨last, hlast, hlaststop⟩ := getLast?_flatten_take hsegs (Nat.lt_succ_self items.length)
  rw [List.take_of_length_le (by simp [hitems.length_eq])] at hlast
  have hparts : ((tokens :: parts).take (j + 1)).flatten ++ ((tokens :: parts).drop (j + 1)).flatten =
      tokens ++ parts.flatten := by
    rw [← List.flatten_append, List.take_append_drop, List.flatten_cons]
  have htake : ((tokens :: parts).take (j + 1)).flatten = tokens ++ (parts.take j).flatten := by
    rw [List.take_succ_cons, List.flatten_cons]
  have hwords : PathWords (head.shape :: (items.map (·.1.shape)).take j)
      ((((tokens :: parts).take (j + 1)).flatten).map Token.word) := by
    rw [htake, List.map_append, ← List.map_take]
    exact .mk hhead (.of_tokens (List.forall₂_take j hitems))
  have hkinds : ∀ t ∈ ((tokens :: parts).take (j + 1)).flatten, t.kind.isPathPart = true := fun t ht =>
    hwords.isPathPart _ (List.mem_map_of_mem ht)
  have hfirst' : (((tokens :: parts).take (j + 1)).flatten).head? = some first := by
    rw [htake, List.head?_append, hfirst]
    rfl
  rw [← hparts] at hl
  obtain ⟨text, more, hslice, hstop, hstop', hspells⟩ :=
    hl.stretch hclean hkinds hfirst' ht (by rw [hparts]; exact hlast)
  cases hfinish.symm.trans hlaststop
  exact ⟨text, more, hslice, hstop ▸ htstop, hstop', _, hwords, by simpa using hspells⟩

/-- A later segment ends further on: the text up to it spells more segments. -/
theorem stop_lt_of_tokens {i j a b : Nat} (hij : i < j) (ha : ((head, stop) :: items)[i]?.map (·.2) = some a)
    (hb : ((head, stop) :: items)[j]?.map (·.2) = some b) : first.span.start ≤ a ∧ a < b := by
  have hj : j ≤ items.length := by
    obtain ⟨item, hitem, -⟩ := Option.map_eq_some_iff.mp hb
    exact Nat.le_of_lt_succ (List.getElem?_eq_some_iff.mp hitem).1
  have hlength : (items.take j).length = j := by rw [List.length_take, Nat.min_eq_left hj]
  have htake : ∀ {k}, k ≤ j → ((head, stop) :: items.take j)[k]? = ((head, stop) :: items)[k]? := fun hk => by
    rw [← List.take_succ_cons, List.getElem?_take_of_lt (Nat.lt_succ_of_le hk)]
  -- What is read up to the later segment, with the tokens of the others behind it.
  rw [← List.take_append_drop j parts, List.flatten_append, ← List.append_assoc, Tokens.prepend_append] at hl
  have hclean' : (Tokens.prepend (parts.drop j).flatten rest).Clean := (Tokens.Clean.suffix_iff ⟨_, rfl⟩).mpr hclean
  have hlast : ((head, stop) :: items.take j)[(items.take j).length]?.map (·.2) = some b := by
    rw [hlength, htake (Nat.le_refl j), hb]
  have spells := fun {k : Nat} (hk : k ≤ j) => exists_text_of_tokens hl hclean' hhead hfirst hstop
    (List.forall₂_take j hitems) (hlength.symm ▸ hk) hlast
  obtain ⟨text, more, hslice, htext, hend, hspelled⟩ := spells (Nat.le_of_lt hij)
  obtain ⟨text', more', hslice', htext', -, hspelled'⟩ := spells (Nat.le_refl j)
  rw [htake (Nat.le_of_lt hij), ha] at htext
  rw [htake (Nat.le_refl j), hb] at htext'
  cases htext
  cases htext'
  rw [Text.byteLength_append] at hend
  refine ⟨Nat.le_add_right _ _, Nat.lt_of_le_of_ne (by omega) fun heq => ?_⟩
  obtain rfl : more = [] := Text.eq_nil_of_byteLength (by omega)
  obtain rfl : text = text' := by
    rw [hslice, List.append_nil] at hslice'
    rw [hslice', Text.byteLength_append] at heq
    obtain rfl : more' = [] := Text.eq_nil_of_byteLength (by omega)
    rw [hslice', List.append_nil]
  have hlengths := congrArg List.length (hspelled.unique hspelled')
  simp only [List.length_cons, List.length_take, List.length_map] at hlengths
  omega

section Cuts

variable {p : Path} {finish : Nat} (hfinish : ((head, stop) :: items)[items.length]?.map (·.2) = some finish)
  (htext : p.text = String.ofList (Text.slice source first.span.start finish))
  (hcuts : p.cuts = ((head, stop) :: items).map fun s => s.2 - first.span.start)
include hfinish htext hcuts

theorem exists_cut_of_tokens {j : Nat} (hj : j ≤ items.length) : ∃ text more, p.text.toList = text ++ more ∧
    p.cuts[j]? = some (Text.byteLength text) ∧ (j = items.length → more = []) ∧
      Spelled (String.ofList text) (head.shape :: (items.map (·.1.shape)).take j) := by
  obtain ⟨text, more, hslice, hstop, hend, hspelled⟩ :=
    exists_text_of_tokens hl hclean hhead hfirst hstop hitems hj hfinish
  refine ⟨text, more, by rw [htext, hslice, String.toList_ofList], ?_, ?_, hspelled⟩
  · obtain ⟨item, hitem, hstop⟩ := Option.map_eq_some_iff.mp hstop
    rw [hcuts, List.getElem?_map, hitem, Option.map_some, hstop, Nat.add_sub_cancel_left]
  · rintro rfl
    cases hfinish.symm.trans hstop
    rw [Text.byteLength_append] at hend
    exact Text.eq_nil_of_byteLength (by omega)

theorem Path.wellCut_of_tokens (hsegs : p.segments = head :: items.map (·.1)) : p.WellCut := by
  have hlength : p.cuts.length = items.length + 1 := by simp [hcuts]
  have spells := fun {j : Nat} (hj : j < p.cuts.length) =>
    exists_cut_of_tokens hl hclean hhead hfirst hstop hitems hfinish htext hcuts (Nat.le_of_lt_succ (hlength ▸ hj))
  refine ⟨by simp [hcuts, hsegs], List.pairwise_iff_getElem.mpr fun i j hi hj hij => ?_, fun c hc => ?_, ?_⟩
  · simp only [hcuts, List.getElem_map]
    rw [hcuts, List.length_map] at hi hj
    have hlt := stop_lt_of_tokens hl hclean hhead hfirst hstop hitems hij
      (congrArg (Option.map Prod.snd) (List.getElem?_eq_getElem hi))
      (congrArg (Option.map Prod.snd) (List.getElem?_eq_getElem hj))
    omega
  · obtain ⟨j, hj, rfl⟩ := List.mem_iff_getElem.mp hc
    obtain ⟨text, more, htext, hcut, -⟩ := spells hj
    rw [htext, Option.some.inj ((List.getElem?_eq_getElem hj).symm.trans hcut)]
    exact Text.isBoundary_append text more
  · obtain ⟨text, more, htext, hcut, hmore, -⟩ := spells (j := items.length) (by omega)
    rw [List.getLast?_eq_getElem?, hlength, Nat.add_sub_cancel, hcut, htext, hmore rfl, List.append_nil]

/-- A path is spelled by its text, if text, segments and cuts come from the tokens that were read. -/
theorem Path.spelled_of_tokens (hsegs : p.segments = head :: items.map (·.1)) : p.Spelled := by
  have hshape : p.shape = head.shape :: items.map (·.1.shape) := by
    simp [Path.shape, hsegs]
  have hlength : p.segments.length = items.length + 1 := by simp [hsegs]
  have spells := fun {j : Nat} (hj : j ≤ items.length) =>
    exists_cut_of_tokens hl hclean hhead hfirst hstop hitems hfinish htext hcuts hj
  refine ⟨?_, fun n hn => ?_, wellCut_of_tokens hl hclean hhead hfirst hstop hitems hfinish htext hcuts hsegs⟩
  · obtain ⟨text, more, htext, -, hmore, hspelled⟩ := spells (Nat.le_refl _)
    rw [hmore rfl, List.append_nil] at htext
    rw [hshape, ← String.ofList_toList (s := p.text), htext]
    rwa [List.take_of_length_le (by simp)] at hspelled
  · obtain ⟨j, hj, hmin, htake⟩ : ∃ j, j ≤ items.length ∧ min n p.segments.length = j + 1 ∧
        ∀ shape : List Shape, shape.length = items.length → shape.take (n - 1) = shape.take j := by
      refine ⟨min (n - 1) items.length, Nat.min_le_right _ _, by omega, fun shape hs => ?_⟩
      rw [← hs, List.take_eq_take_iff]
      omega
    obtain ⟨text, more, htext, hcut, -, hspelled⟩ := spells hj
    have hcut : p.cut (j + 1) = Text.byteLength text := by
      rw [Path.cut, if_neg (Nat.succ_ne_zero j), Nat.add_sub_cancel, hcut, Option.getD_some]
    rw [Path.text_take, hmin, hcut, htext, Text.isBoundary_append, if_pos rfl, Text.takeBytes_append,
      Path.shape_take, hshape]
    obtain ⟨k, rfl⟩ : ∃ k, n = k + 1 := ⟨n - 1, by omega⟩
    rw [List.take_succ_cons, ← Nat.add_sub_cancel (n := k) (m := 1), htake _ (by simp)]
    exact hspelled

end Cuts

end FromTokens

end PathScript
