import Mathlib.Data.List.Nodup
import PathScript.Compile.Names
import PathScript.Proofs.Tree

/-! # Layouts

While the body of a function is read, its layout is filled: a name gets the next
register when it is bound, and is a free variable if it is read before that. A
layout only grows, so a register that was handed out stays that of its name, and
a name that was found free never gets one. -/

namespace PathScript

namespace Compile

variable {l l' : Layout} {name : String}

namespace Layout

/-- No name has two places. -/
structure Distinct (l : Layout) : Prop where
  registers : l.registers.Nodup
  freeVars : l.freeVars.Nodup
  apart : l.registers.Disjoint l.freeVars

/-- A layout of the same function, later on. -/
structure Grows (l l' : Layout) : Prop where
  registers : l.registers <+: l'.registers
  freeVars : l.freeVars <+: l'.freeVars
  distinct : l.Distinct → l'.Distinct

theorem Grows.refl (l : Layout) : l.Grows l := ⟨List.prefix_refl _, List.prefix_refl _, id⟩

theorem Grows.trans {l'' : Layout} (h : l.Grows l') (h' : l'.Grows l'') : l.Grows l'' :=
  ⟨h.registers.trans h'.registers, h.freeVars.trans h'.freeVars, h'.distinct ∘ h.distinct⟩

theorem read_grows (l : Layout) (name : String) : l.Grows (l.read name) := by
  unfold read
  split
  · exact .refl l
  next hnew =>
    obtain ⟨hregister, hfree⟩ : name ∉ l.registers ∧ name ∉ l.freeVars := by simpa using hnew
    refine ⟨List.prefix_refl _, List.prefix_append _ _, fun hd => ⟨hd.registers, ?_, ?_⟩⟩
    · exact List.nodup_append'.mpr ⟨hd.freeVars, List.nodup_singleton name, by simpa using hfree⟩
    · exact List.disjoint_append_right.mpr ⟨hd.apart, by simpa using hregister⟩

end Layout

/-- How a name is bound in the body with a layout: in the register that is its own, and in none if it is free. Outside
of functions there are no registers. -/
def Bound (l : Option Layout) (name : String) : Option Nat → Prop
  | some i => ∃ l' ∈ l, l'.registers[i]? = some name
  | none => ∀ l' ∈ l, name ∈ l'.freeVars

theorem Layout.allocate_grows (l : Layout) (name : String) :
    l.Grows (l.allocate name).2 ∧ Bound (some (l.allocate name).2) name (l.allocate name).1 := by
  unfold allocate
  split
  next i hi =>
    obtain ⟨hlt, heq, -⟩ := List.idxOf?_eq_some_iff.mp hi
    exact ⟨.refl l, l, rfl, List.getElem?_eq_some_iff.mpr ⟨hlt, heq⟩⟩
  next hnew =>
    have hregister : name ∉ l.registers := List.idxOf?_eq_none_iff.mp hnew
    split
    next hfree =>
      refine ⟨.refl l, ?_⟩
      rintro _ ⟨⟩
      exact List.contains_iff_mem.mp hfree
    next hfree =>
      have hfree : name ∉ l.freeVars := fun h => hfree (List.contains_iff_mem.mpr h)
      refine ⟨⟨List.prefix_append _ _, List.prefix_refl _, fun hd => ⟨?_, hd.freeVars, ?_⟩⟩, _, rfl, by simp⟩
      · exact List.nodup_append'.mpr ⟨hd.registers, List.nodup_singleton name, by simpa using hregister⟩
      · exact List.disjoint_append_left.mpr ⟨hd.apart, by simpa using hfree⟩

/-! ## The functions around a place -/

/-- The layouts around a place, later on: only that of the innermost function has grown. -/
inductive Grow : List Layout → List Layout → Prop where
  | outside : Grow [] []
  | inside {l l' : Layout} {outer : List Layout} (h : l.Grows l') : Grow (l :: outer) (l' :: outer)

variable {ls ls' ls'' : List Layout}

theorem Grow.refl (ls : List Layout) : Grow ls ls := by
  cases ls with
  | nil => exact .outside
  | cons l outer => exact .inside (.refl l)

theorem Grow.trans (h : Grow ls ls') (h' : Grow ls' ls'') : Grow ls ls'' := by
  cases h with
  | outside => exact h'
  | inside h =>
    cases h' with
    | inside h' => exact .inside (h.trans h')

theorem Grow.eq_nil (h : Grow [] ls) : ls = [] := by
  cases h with
  | outside => rfl

theorem Bound.mono {register : Option Nat} (hb : Bound ls.head? name register) (h : Grow ls ls') :
    Bound ls'.head? name register := by
  cases h with
  | outside => exact hb
  | inside h =>
    cases register with
    | some i =>
      obtain ⟨_, ⟨⟩, hi⟩ := hb
      obtain ⟨more, hmore⟩ := h.registers
      refine ⟨_, rfl, ?_⟩
      obtain ⟨hlt, -⟩ := List.getElem?_eq_some_iff.mp hi
      rw [← hmore, List.getElem?_append_left hlt, hi]
    | none =>
      rintro _ ⟨⟩
      exact h.freeVars.subset (hb _ rfl)

end Compile

/-- How an assignment binds its target, if that is a name. -/
def Target.Bound (l : Option Compile.Layout) (register : Option Nat) : Target → Prop
  | .name x => Compile.Bound l x register
  | .path _ _ => True

theorem Target.Bound.mono {t : Target} {ls ls' : List Compile.Layout} {register : Option Nat}
    (hb : t.Bound ls.head? register) (h : Compile.Grow ls ls') : t.Bound ls'.head? register := by
  cases t with
  | name x => exact Compile.Bound.mono hb h
  | path p site => trivial

/-! ## Functions -/

/-- A name that a node binds, with the register that it gives it. -/
def Node.binds? (n : Node) : Option (String × Option Nat) :=
  match n.kind with
  | .assignment (.name name) _ _ _ register => some (name, register)
  | _ => none

/-- The layout with which a function was completed. -/
def Function.layout (fn : Function) : Compile.Layout := ⟨fn.registers, fn.freeVars⟩

/-- Every name of a function has its place. -/
structure Function.LaidOut (fn : Function) : Prop where
  distinct : fn.layout.Distinct
  params : fn.params.map (·.name) <+: fn.registers
  bound : ∀ m : Node, m.Within fn.body → ∀ b ∈ m.binds?, Compile.Bound (some fn.layout) b.1 b.2

end PathScript
