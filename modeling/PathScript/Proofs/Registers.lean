import PathScript.Proofs.Formed

/-! # Registers

A name that a function binds has a register, which is its position in the frame
of a call. Compilation hands registers out while it reads a body, and evaluation
binds by them where the position is that of the name. -/

namespace PathScript

/-! ## Layouts of compiled programs -/

section Layouts

variable {env : Compile.Env} {site function : Nat} {c : Compiled Node}

theorem Compile.bound_iff {l : Layout} {name : String} {register : Option Nat} : Bound (some l) name register ↔
      (∃ r, register = some r ∧ l.registers[r]? = some name) ∨ register = none ∧ name ∈ l.freeVars := by
  cases register with
  | some r => simp [Bound]
  | none => simp [Bound]

theorem Compiled.Program.laidOut (h : c.Program site) {fn : Function}
    (hfn : fn ∈ c.functions ∨ ∃ m : Node, m.Occurs c.tree ∧ m.kind = .functionDecl fn) : fn.LaidOut := by
  obtain ⟨m, hm, hkind⟩ := hfn.elim (h.functions fn) id
  have hsound := h.grown.sound m ⟨c.tree, List.mem_singleton_self _, hm⟩
  simp only [Node.Sound, Node.SoundIn, hkind] at hsound
  exact hsound.1

/-- In a compiled program, the registers of every function are distinct names that start with its parameters, and its
free variables are distinct names without a register. Whatever binds a name in its body, outside of the functions in
it, has the register of the name, or none if the name is free. Outside of functions, nothing has a register. -/
theorem registers_laid_out (h : compileProgram env site function = .ok c) :
    (∀ fn : Function, (fn ∈ c.functions ∨ ∃ m : Node, m.Occurs c.tree ∧ m.kind = .functionDecl fn) →
      fn.registers.Nodup ∧ fn.params.map (·.name) <+: fn.registers ∧
      fn.freeVars.Nodup ∧ fn.registers.Disjoint fn.freeVars ∧
      ∀ m : Node, m.Within fn.body → ∀ name register, m.binds? = some (name, register) →
        (∃ r, register = some r ∧ fn.registers[r]? = some name) ∨ register = none ∧ name ∈ fn.freeVars) ∧
    ∀ m : Node, m.Within c.tree → ∀ name register, m.binds? = some (name, register) → register = none := by
  have hprogram := program_of_compileProgram h
  refine ⟨fun fn hfn => ?_, fun m hm name register hb => ?_⟩
  · have hlaid := hprogram.laidOut hfn
    refine ⟨hlaid.distinct.registers, hlaid.params, hlaid.distinct.freeVars, hlaid.distinct.apart, ?_⟩
    exact fun m hm name register hb => Compile.bound_iff.mp (hlaid.bound m hm _ hb)
  · have hbound := hprogram.bound m hm _ hb
    cases register with
    | none => rfl
    | some r => obtain ⟨l, ⟨⟩, -⟩ := hbound

/-- `d` is read before it is bound, and `c` is not. The inner function has a layout of its own. -/
theorem registers_laid_out_nested :
    let env : Compile.Env := ⟨"def f(a, b) \x7b c = a; d = d + 1; def g(x) \x7b y = a; x = 2 \x7d; int b = c \x7d; e = 1".toList,
      .standard, .standard, .standard⟩
    ∃ c : Compiled Node, compileProgram env 0 0 = .ok c ∧
      c.functions.map (·.layout) = [⟨["x", "y"], ["a"]⟩, ⟨["a", "b", "c"], ["d"]⟩] ∧
      (∀ fn ∈ c.functions, fn.registers.Disjoint fn.freeVars) ∧
      ∀ m : Node, m.Within c.tree → ∀ name register, m.binds? = some (name, register) → register = none := by
  intro env
  have h : (compileProgram env 0 0).toOption.any (fun c =>
      decide (c.functions.map (·.layout) = [⟨["x", "y"], ["a"]⟩, ⟨["a", "b", "c"], ["d"]⟩])) = true := by
    decide +kernel
  obtain ⟨c, hcompiled, h⟩ := exists_ok_of_any h
  obtain ⟨hfunctions, houtside⟩ := registers_laid_out hcompiled
  exact ⟨c, hcompiled, of_decide_eq_true h, fun fn hfn => (hfunctions fn (.inl hfn)).2.2.2.1, houtside⟩

end Layouts

/-! ## The frame of a call as a map -/

namespace Scope

/-- A name that is created, with its slot: at a register, or by name alone. -/
structure Created where
  name : String
  slot : SlotId
  register : Option Nat

/-- A scope after a name is created in it. -/
def create (s : Scope) (c : Created) : Scope :=
  match c.register with
  | some i => s.bindAt i c.name c.slot
  | none => s.bind c.name c.slot

variable {s : Scope} {cs : List Created}

end Scope

/-! ## Evaluation with other registers -/

namespace Eval

end Eval

namespace Growth

variable {i : Names} {f f' : Frame}

end Growth

namespace Engine

theorem History.distinct {e : Engine} {trees : List Node} (h : History e trees) : e.world.Distinct :=
  fun fn hfn => ((h.keeps lasting_faithful).1.laidOut fn hfn).distinct.registers

end Engine

end PathScript
