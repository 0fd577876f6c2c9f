import PathScript.Proofs.Follows.Stmt

/-! # Options and programs

Of the options of a compilation only the imported names say what a program
means. The others check it, or record types and lines on it. -/

namespace PathScript

namespace Compile

variable {α : Type} {x : CompileM α} {f : α → α} {env env' : Env} {site function : Nat}

/-- A compilation that gets on under laxer options too, with the same program. -/
def Robust (compile : Env → Except CompileError (Compiled α)) (f : α → α) : Prop :=
  ∀ ⦃env env' : Env⦄, env.Relaxes env' → ∀ c, compile env = .ok c →
    ∃ c', compile env' = .ok c' ∧ c.bare f = c'.bare f

theorem robust_run (hx : Follows True x x fun a b => f a = f b) (site function : Nat) :
    Robust (fun env => run x env site function) f := by
  intro env env' henv c h
  dsimp only [run] at h ⊢
  cases hrun : x env (.start site function) with
  | error e => rw [hrun] at h; cases h
  | ok r =>
    obtain ⟨a, st⟩ := r
    rw [hrun] at h
    cases h
    obtain ⟨b, st', hrun', hab, hst⟩ := hx henv (.start fun _ => ⟨rfl, rfl⟩) a st hrun
    refine ⟨⟨b, st'.functions.reverse, st'.nextSite⟩, by rw [hrun'], ?_⟩
    rw [Compiled.bare, Compiled.bare, hab, hst.nextSite trivial, List.map_reverse, hst.functions trivial, List.map_reverse]

theorem robust_compilePath (site function : Nat) : Robust (compilePath · site function) Path.bare :=
  robust_run follows_assignablePath site function

theorem robust_compileProgram (site function : Nat) : Robust (compileProgram · site function) Node.bare := by
  have ok_iff : ∀ env c, compileProgram env site function = .ok c ↔ run program env site function = .ok c := by
    intro env c
    unfold compileProgram
    cases run program env site function with
    | error e => exact ⟨nofun, nofun⟩
    | ok c' => exact Iff.rfl
  intro env env' henv c h
  obtain ⟨c', hc', heq⟩ := robust_run (follows_program.imp fun _ _ h => h.eq) site function henv c ((ok_iff env c).mp h)
  exact ⟨c', (ok_iff env' c').mpr hc', heq⟩

/-- What the compilations of a source under two sets of options have in common: they make the same program if both
succeed, the second succeeds if it is not strict and the first does, and both accept the same if neither is strict. -/
structure Indifferent (f : α → α) (compile : CompileOptions → Except CompileError (Compiled α))
    (o o' : CompileOptions) : Prop where
  alike : ∀ c c', compile o = .ok c → compile o' = .ok c' → c.bare f = c'.bare f
  relaxed : o'.strict = false → (compile o).isOk = true → (compile o').isOk = true
  accepted : o.strict = false → o'.strict = false → (compile o).isOk = (compile o').isOk

theorem Robust.indifferent {compile : Env → Except CompileError (Compiled α)} (hr : Robust compile f) (source : List Char)
    (classes : ClassTable) (library : ClassLibrary) {o o' : CompileOptions} (h : o.imports = o'.imports) :
    Indifferent f (fun o => compile ⟨source, o, classes, library⟩) o o' := by
  have relaxed : ∀ {o o' : CompileOptions}, o.imports = o'.imports → o'.strict = false →
      (compile ⟨source, o, classes, library⟩).isOk = true → (compile ⟨source, o', classes, library⟩).isOk = true := by
    intro o o' h hlenient hok
    cases hc : compile ⟨source, o, classes, library⟩ with
    | error e => rw [hc] at hok; cases hok
    | ok c =>
      have henv : Env.Relaxes ⟨source, o, classes, library⟩ ⟨source, o', classes, library⟩ := ⟨rfl, rfl, h, hlenient⟩
      obtain ⟨c', hc', -⟩ := hr henv c hc
      rw [hc']
      rfl
  refine ⟨fun c c' hc hc' => ?_, relaxed h, fun hlenient hlenient' => ?_⟩
  · -- Both agree with a compilation that checks nothing.
    let free : Env := ⟨source, { o with strict := false }, classes, library⟩
    have henv : Env.Relaxes ⟨source, o, classes, library⟩ free := ⟨rfl, rfl, rfl, rfl⟩
    have henv' : Env.Relaxes ⟨source, o', classes, library⟩ free := ⟨rfl, rfl, h.symm, rfl⟩
    obtain ⟨d, hd, heq⟩ := hr henv c hc
    obtain ⟨d', hd', heq'⟩ := hr henv' c' hc'
    cases hd.symm.trans hd'
    rw [heq, heq']
  · rw [Bool.eq_iff_iff]
    exact ⟨relaxed h hlenient', relaxed h.symm hlenient⟩

end Compile

open Compile

/-- Options that import the same names accept the same sources, but for those that strict ones refuse, and make the
same programs and paths of them: the trees, the functions and their numbers are the same but for the types and lines
that are recorded. -/
theorem compiled_independent_of_checks (source : List Char) (classes : ClassTable) (library : ClassLibrary)
    (site function : Nat) (o o' : CompileOptions) (h : o.imports = o'.imports) :
    Indifferent Node.bare (fun o => compileProgram ⟨source, o, classes, library⟩ site function) o o' ∧
      Indifferent Path.bare (fun o => compilePath ⟨source, o, classes, library⟩ site function) o o' :=
  ⟨(robust_compileProgram site function).indifferent source classes library h,
    (robust_compilePath site function).indifferent source classes library h⟩

/-- A program that strict options accept, with other types and lines than it has without them. -/
theorem compiled_independent_of_checks_strict :
    let compile (o : CompileOptions) := compileProgram ⟨"x = 1; y = x + 2".toList, o, .standard, .standard⟩ 0 0
    let strict : CompileOptions := { CompileOptions.standard with strict := true, debug := true }
    ∃ c c', compile strict = .ok c ∧ compile .standard = .ok c' ∧ c.tree.info ≠ c'.tree.info ∧
      c.bare Node.bare = c'.bare Node.bare := by
  intro compile strict
  have h : (compile strict).toOption.any (fun c => (compile .standard).toOption.any fun c' =>
      decide (c.tree.info ≠ c'.tree.info)) = true := by decide +kernel
  obtain ⟨c, hc, h⟩ := exists_ok_of_any h
  obtain ⟨c', hc', h⟩ := exists_ok_of_any h
  refine ⟨c, c', hc, hc', of_decide_eq_true h, ?_⟩
  exact (compiled_independent_of_checks _ _ _ 0 0 strict .standard rfl).1.alike c c' hc hc'

end PathScript
