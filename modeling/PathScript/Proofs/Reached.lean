import PathScript.Proofs.Tiling

/-! # What a reader can come to

A reader is asked for the next lexeme, for a look at it, to go back, or whether
it is at the end, in any order. What holds of its cursor after blanks are skipped
and after a lexeme is read holds of every reader that one can come to, since it
only ever returns to places where it has been. -/

namespace PathScript

/-! ## Stretches as parts -/

theorem Span.In.parts {source : List Char} {s : Span} (h : s.In source) :
    ∃ before text behind, source = before ++ text ++ behind ∧ s.start = Text.byteLength before ∧
      s.stop = Text.byteLength before + Text.byteLength text := by
  obtain ⟨before, rest, hsource, hstart⟩ := h.start
  obtain ⟨upTo, behind, hsource', hstop⟩ := h.stop
  have hle := h.le
  have hpre : before <+: source := ⟨rest, hsource.symm⟩
  have hpre' : upTo <+: source := ⟨behind, hsource'.symm⟩
  rcases List.prefix_or_prefix_of_prefix hpre hpre' with ⟨text, rfl⟩ | ⟨text, rfl⟩
  · exact ⟨before, text, behind, hsource', hstart, by rw [hstop, Text.byteLength_append]⟩
  · rw [Text.byteLength_append] at hstart
    have htext : text = [] := Text.eq_nil_of_byteLength (by omega)
    subst htext
    exact ⟨upTo, [], behind, by rw [hsource', List.append_nil], by simpa using hstart, by simpa using hstop⟩

namespace Cursor

/-- A cursor in the part of a source that ends at an offset, with the character that follows there. -/
structure InPart (source : List Char) (stop : Nat) (after : Option Char) (c : Cursor) : Prop where
  within : c.Within source
  stop : c.stop = stop
  after : c.after = after

/-- What holds of a cursor in a part that ends at an offset, and goes on to hold as the cursor moves. -/
structure Kept (stop : Nat) (P : Cursor → Prop) : Prop where
  stop : ∀ {c}, P c → c.stop = stop
  skip : ∀ {c c'}, P c → c.skipTrivia = .ok c' → P c'
  lexeme : ∀ {c c' l}, P c → c.skipTrivia = .ok c → c.lexeme = .ok (l, c') → P c'

variable {source : List Char} {stop : Nat} {after : Option Char} {c c' : Cursor} {l : Lexeme}

theorem InPart.advance {used : List Char} (h : c.InPart source stop after) (hrest : c.rest = used ++ c'.rest)
    (hpos : c'.pos = c.pos + Text.byteLength used) (hafter : c'.after = c.after) : c'.InPart source stop after where
  within := h.within.advance hrest hpos
  stop := by
    rw [← h.stop, Cursor.stop, Cursor.stop, hrest, hpos, Text.byteLength_append]
    omega
  after := hafter.trans h.after

theorem kept_inPart (source : List Char) (stop : Nat) (after : Option Char) : Kept stop (InPart source stop after) where
  stop h := h.stop
  skip h hs := by
    obtain ⟨htrivia, hafter⟩ := skipTrivia_eq hs
    obtain ⟨gap, hrest, hpos⟩ := Scan.trivia_eq htrivia
    exact h.advance hrest hpos hafter
  lexeme h _ hl := by
    obtain ⟨hrest, hstart, hstop, hpos, hafter⟩ := passes_of_lexeme hl
    refine h.advance hrest ?_ hafter
    rw [hpos, hstop, hstart]
    rfl

end Cursor

namespace Reader

/-! ## Runs -/

/-- The readers that one comes to from a reader, whatever is asked of it. -/
inductive Reached (r : Reader) : Reader → Prop where
  | start : Reached r r
  | next {r' : Reader} (h : Reached r r') : Reached r r'.next.2
  | peek {r' : Reader} (h : Reached r r') : Reached r r'.peek.2
  | back {r' : Reader} (h : Reached r r') : Reached r r'.back
  | atEnd {r' : Reader} (h : Reached r r') : Reached r r'.atEnd.2

/-- A reader of a source up to an offset, of whose cursor something holds, and of the one it would go back to. -/
structure Stands (source : List Char) (stop : Nat) (P : Cursor → Prop) (r : Reader) : Prop where
  source : r.source = source
  stop : r.stop = stop
  cursor : P r.cursor
  last : ∀ l c, r.last = some (l, c) → P c

namespace Stands

variable {source : List Char} {stop : Nat} {P : Cursor → Prop} {r : Reader} {l : Lexeme} {c : Cursor}
  (hP : Cursor.Kept stop P) (h : r.Stands source stop P)
include h

theorem moved (hc : P c) : ({ r with cursor := c } : Reader).Stands source stop P :=
  ⟨h.source, h.stop, hc, h.last⟩

theorem back : r.back.Stands source stop P := by
  unfold Reader.back
  split
  next heq => exact ⟨h.source, h.stop, h.last _ _ heq, nofun⟩
  next => exact h

include hP

theorem atStop : r.stop = r.cursor.stop :=
  h.stop.trans (hP.stop h.cursor).symm

/-- A reader that is at blanks goes past them, and where a comment does not end stays where it is. -/
theorem skip : r.skip.2.Stands source stop P := by
  cases hs : r.cursor.skipTrivia with
  | ok c =>
    rw [skip_of_cursor (atStop hP h) hs]
    exact h.moved (hP.skip h.cursor hs)
  | error e =>
    simp only [Reader.skip, hs]
    exact h

theorem next : r.next.2.Stands source stop P := by
  cases hs : r.cursor.skipTrivia with
  | error e =>
    simp only [Reader.next, Reader.skip, hs]
    exact h
  | ok c =>
    have hc := hP.skip h.cursor hs
    cases hl : c.lexeme with
    | error e =>
      simp only [Reader.next, skip_of_cursor (atStop hP h) hs, hl]
      exact h.moved hc
    | ok found =>
      simp only [Reader.next, skip_of_cursor (atStop hP h) hs, hl]
      refine ⟨h.source, h.stop, hP.lexeme hc (Cursor.skipTrivia_skipTrivia hs) hl, fun l c' heq => ?_⟩
      cases heq
      exact h.cursor

theorem peek : r.peek.2.Stands source stop P := by
  have hnext := h.next hP
  unfold Reader.peek
  split
  next => exact h
  next heq => rw [heq] at hnext; exact hnext

theorem atEnd : r.atEnd.2.Stands source stop P := by
  have hskip := h.skip hP
  unfold Reader.atEnd
  split
  next heq => rw [heq] at hskip; exact hskip
  next heq => rw [heq] at hskip; exact hskip

theorem reached {r' : Reader} (hr : Reached r r') :
    r'.Stands source stop P := by
  induction hr with
  | start => exact h
  | next _ ih => exact ih.next hP
  | peek _ ih => exact ih.peek hP
  | back _ ih => exact ih.back
  | atEnd _ ih => exact ih.atEnd hP

theorem next_eq (hn : r.next.1 = .ok l) :
    ∃ c, r.cursor.next = .ok (l, c) := by
  cases hc : r.cursor.next with
  | error e => rw [next_of_fault (atStop hP h) hc] at hn; cases hn
  | ok found =>
    obtain ⟨l', c⟩ := found
    rw [next_of_cursor (atStop hP h) hc] at hn
    cases hn
    exact ⟨c, rfl⟩

end Stands

/-! ## Readers of a stretch -/

theorem ofText_eq (source : List Char) :
    ofText source = ⟨source, Text.byteLength source, ⟨0, source, none⟩, none⟩ := toEnd_ofRange [] source

/-- A reader of a stretch of a source starts at its first character and knows the one behind it. -/
theorem ofRange_parts (before text behind : List Char) :
    ofRange (before ++ text ++ behind) (Text.byteLength before) (Text.byteLength before + Text.byteLength text) =
      ⟨before ++ text ++ behind, Text.byteLength before + Text.byteLength text,
        ⟨Text.byteLength before, text, behind.head?⟩, none⟩ := by
  have hle : Text.byteLength before + Text.byteLength text ≤ Text.byteLength (before ++ text ++ behind) := by
    simp only [Text.byteLength_append]
    omega
  simp only [ofRange, Nat.min_eq_left hle, Cursor.ofRange_part]

theorem stands_ofRange {source : List Char} {s : Span} (h : s.In source) : ∃ after,
    (ofRange source s.start s.stop).Stands source s.stop (Cursor.InPart source s.stop after) := by
  obtain ⟨before, text, behind, rfl, hstart, hstop⟩ := h.parts
  rw [hstart, hstop, ofRange_parts]
  exact ⟨behind.head?, rfl, rfl, ⟨⟨before, behind, rfl, rfl⟩, rfl, rfl⟩, nofun⟩

end Reader

end PathScript
