import PathScript.Proofs.Acceleration.History

/-! # Interpreted evaluation

What is remembered about programs belongs to the engine: one program reaches the
sites of another through its functions. In interpreted evaluation no site is
looked at, so nothing is remembered that was not remembered before, and nothing
is forgotten. -/

namespace PathScript

/-- An interpreted evaluation and itself, where what is remembered is given. -/
def interpretation (accel : Accelerator) : Lockstep :=
  .self (fun _ _ : Unit => True) (fun _ => trivial) (fun _ _ => trivial) (fun _ m => m.accel = accel)
    (fun _ f => f.mode = .interpreted) fun _ => True

namespace Interpretation

variable {accel : Accelerator} {f : Frame}

theorem sameStore : (interpretation accel).SameStore :=
  Lockstep.sameStore_self (fun _ => trivial) (fun _ _ => trivial) (fun _ a => a = accel)
    (fun _ _ mode => mode = .interpreted) (fun _ _ => trivial) fun _ _ => trivial

theorem not_remembers {i : Unit} : ¬(interpretation accel).Remembers i := fun ⟨_, _, hf, hmode⟩ => by
  obtain ⟨rfl, hf⟩ := hf
  exact hmode (beq_iff_eq.mpr hf)

theorem knownCells : (interpretation accel).KnownCells fun _ _ _ => True where
  frames := fun h => h.1
  accel := fun h => by rw [h.1]
  read := fun _ _ _ _ => trivial
  write := fun _ _ _ _ => trivial
  noteRead := fun h => absurd h not_remembers
  noteWrite := fun h => absurd h not_remembers
  note := fun h _ => absurd h not_remembers

theorem sites : (interpretation accel).Sites :=
  knownCells.sites sameStore.lawful.toLocal (fun h => absurd h not_remembers) fun h => absurd h not_remembers

/-- A program that is interpreted leaves what is remembered, also if it fails. -/
theorem program_accel (hf : f.mode = .interpreted) (fuel : Nat) (root : Node) {m m' : Machine}
    (left : (Eval.program fuel f root m).Leaves m') : m'.accel = m.accel := by
  have hsim : (interpretation m.accel).Sim () (Eval.program fuel f root) (Eval.program fuel f root) :=
    sameStore.lawful.program sites fuel ⟨rfl, hf⟩ trivial
  obtain ⟨-, -, -, -, haccel⟩ := (hsim () trivial m m ⟨rfl, rfl⟩).leaves_left trivial left
  exact haccel

end Interpretation

namespace Engine

variable {e e' : Engine}

/-- Interpreted evaluation of a program, however it ends and whatever functions it calls, leaves the engine as it was but
for the store, the value that is returned and the statements that are reported. So all that is remembered stays: cells
and sites of paths, of collections, of `new` expressions and of loops, and the units in the registry with its counters;
and so do the functions of the engine and the programs in its cache, with the patterns that were compiled for them. -/
theorem interpreted_leaves_memory (c : CompiledExpression) (ctx this : Value) (vars : Option Variables) (watched : Bool)
    (fuel : Nat) (left : (evaluate c ctx this vars ⟨.interpreted, watched, fuel⟩ e).Leaves e') :
    e' = { e with machine := { e'.machine with accel := e.machine.accel } } := by
  rw [evaluate_eq] at left
  obtain ⟨m, hm, rfl⟩ := leaves_onMachine left
  have haccel : m.accel = e.machine.accel := (Interpretation.program_accel rfl fuel c.root hm).trans rfl
  simp only [started, ← haccel]

/-- A program leaves a function in variables, and the path in it is specialised at its first call. Another program calls
the function interpreted, goes through a list and makes an object: no counter of the registry changes. Accelerated it
would install units of its own. -/
theorem interpreted_leaves_memory_shared_function :
    ∃ (e e' : Engine) (c : CompiledExpression) (ctx : Value) (vars : Variables),
      evaluate c ctx .null (some vars) ⟨.interpreted, false, 40⟩ e = .ok (.int 5) e' ∧
      e' = { e with machine := { e'.machine with accel := e.machine.accel } } ∧ e'.stats.installed = 1 ∧
      ∃ e'', evaluate c ctx .null (some vars) ⟨.accelerated, false, 40⟩ e = .ok (.int 5) e'' ∧ 1 < e''.stats.installed := by
  let e₀ : Engine := .new { Config.standard with optimizer := .specializing } fun _ => 0
  let withMap : Heap → Value × Heap := fun h =>
    let inner := h.newMap (Dict.empty.insert "b" (.int 2))
    inner.2.newMap (Dict.empty.insert "a" inner.1)
  have h : (compile "def f() \x7b a.b \x7d f()" .standard e₀).okAnd (fun first e₁ =>
      (compile "s = 1; foreach (x : [f(), f()]) \x7b s += x \x7d m = new Map(); m.k = s; m.k" .standard e₁).okAnd fun c e₂ =>
      (stepStore (Store.making withMap) e₂).okAnd fun ctx e₃ =>
      (stepStore Variables.new e₃).okAnd fun vars e₄ =>
      (evaluate first ctx .null (some vars) ⟨.accelerated, false, 40⟩ e₄).okAnd fun _ e₅ =>
      (evaluate c ctx .null (some vars) ⟨.interpreted, false, 40⟩ e₅).okAnd fun v e₆ =>
      (evaluate c ctx .null (some vars) ⟨.accelerated, false, 40⟩ e₅).okAnd fun w e₇ =>
        decide (v = .int 5) && decide (w = .int 5) && decide (e₆.stats.installed = 1) &&
          decide (1 < e₇.stats.installed)) = true := by decide +kernel
  simp only [Outcome.okAnd_iff, Bool.and_eq_true, decide_eq_true_eq] at h
  obtain ⟨first, e₁, -, c, e₂, -, ctx, e₃, -, vars, e₄, -, -, e₅, -, v, e₆, hinterpreted, w, e₇, haccelerated, ⟨⟨rfl,
      rfl⟩, hkept⟩, hinstalled⟩ := h
  exact ⟨e₅, e₆, c, ctx, vars, hinterpreted, interpreted_leaves_memory c ctx .null (some vars) false 40 (.of_ok hinterpreted),
    hkept, e₇, haccelerated, hinstalled⟩

end Engine

end PathScript
