import PathScript.Proofs.Promise.Given
import PathScript.Proofs.Promise.Stmt

/-! # Static types of programs

Hosts read the static type of a program as a promise about its result. It is one
only together with the promises of the places that it rests on. -/

namespace PathScript

variable {asked : Node → Prop} {typed : Bool} {f : Frame} {root : Node} {fuel : Nat} {m m' : Machine} {v : Value}

/-! ## Places -/

theorem Node.RestsOn.known {p n : Node} (h : p.RestsOn n) : p.egress.isKnown = true := by
  induction h with
  | here known => exact known
  | under _ _ _ ih => exact ih

theorem Node.mem_children_of_mem_bases {n c : Node} (h : c ∈ n.bases) : c ∈ n.children := by
  obtain ⟨i, kind⟩ := n
  cases kind with
  | unary op a =>
    cases op with
    | neg => exact h
    | not => cases h
  | binary op l r =>
    simp only [bases] at h
    split at h
    · cases h
    · exact h
  | assignment target op value decl register =>
    cases decl with
    | none => cases h
    | some ty =>
      cases ty with
      | any => exact List.mem_append_right _ h
      | _ => cases h
  | ifChain branches otherwise =>
    rcases List.mem_append.mp h with h | h
    · obtain ⟨b, hb, rfl⟩ := List.mem_map.mp h
      exact List.mem_append_left _ (List.mem_flatMap.mpr ⟨b, hb, by simp⟩)
    · exact List.mem_append_right _ h
  | ternary c a b => exact List.mem_cons_of_mem _ h
  | withItems target items => exact List.mem_cons.mpr (.inl (List.mem_singleton.mp h))
  | block stmts own => exact List.mem_of_getLast? (Option.mem_toList.mp h)
  | group | returns => exact h
  | _ => cases h

theorem Node.RestsOn.occurs {p n : Node} (h : p.RestsOn n) : p.Occurs n := by
  induction h with
  | here => exact .here p
  | under _ base _ ih => exact .under (mem_children_of_mem_bases base) ih

/-- What a program rests on are places in it whose types say something. -/
theorem Node.Grounds.occurs {p root : Node} (h : root.Grounds p) :
    p.Occurs root ∧ p.isPlace = true ∧ p.egress.isKnown = true := by
  obtain ⟨hplace, hrests | ⟨r, hr, -, hrests⟩⟩ := h
  · exact ⟨hrests.occurs, hplace, hrests.known⟩
  · exact ⟨hrests.occurs.trans hr.occurs, hplace, hrests.known⟩

/-! ## Evaluation -/

/-- Where nothing is asked of places, nothing changes. -/
theorem Eval.kept_eq_node (h : ∀ n, ¬ asked n) (fuel : Nat) : Eval.kept asked fuel = Eval.node fuel := by
  induction fuel with
  | zero => rfl
  | succ fuel ih =>
    funext f n
    simp only [kept, ih, h n, false_and, if_false, bind_pure, node]

/-- A program gives what its static type promises if the places that it rests on keep their promises, and all its returns
have its type. -/
theorem meets_programKept (hf : f.Plain) (hroot : IsStatement typed root)
    (hreturns : ∀ r : Node, r.Within root → ∀ value, r.kind = .returns value → r.egress = root.egress)
    (h : Eval.programKept root.Grounds fuel f root m = .ok v m') : v.Meets root.egress := by
  have hfaithful : root.Faithfully typed root.Grounds root.egress :=
    ⟨hroot, fun r hr value hk => ⟨hreturns r hr value hk, fun p hp hrests => ⟨hp, .inr ⟨r, hr, ⟨value, hk⟩, hrests⟩⟩⟩⟩
  rw [Eval.programKept, Eval.activation_apply] at h
  cases hrun : Eval.unscoped (Eval.kept root.Grounds fuel) f root { m with returned := none } with
  | error e m₁ => rw [hrun] at h; cases h
  | diverged => rw [hrun] at h; cases h
  | ok w m₁ =>
    rw [hrun] at h
    dsimp only at h
    have hstart : Machine.ReturnMeets root.egress { m with returned := none } := fun _ h => by cases h
    obtain ⟨hreturned, hvalue⟩ := honest_unscoped (.kept fuel) hf hfaithful _ w m₁ hstart hrun
    cases hr : m₁.returned with
    | none =>
      rw [hr] at h
      cases h
      exact hvalue hr fun p hp hrests => ⟨hp, .inl hrests⟩
    | some u =>
      rw [hr] at h
      cases h
      exact hreturned _ hr

namespace Engine

variable {e e' : Engine} {trees : List Node} {c : CompiledExpression} {ctx this : Value} {vars : Option Variables}
  {options : EvalOptions}

theorem statement_of_compile {source : String} {options : CompileOptions} (compiled : compile source options e = .ok c e') :
    IsStatement options.verifies c.root := by
  obtain ⟨p, hprogram, rfl, -⟩ := exists_of_compile compiled
  exact (statement_of_compileProgram hprogram).1

/-- A value that an evaluation gives in either mode is given by interpreted evaluation. -/
theorem interpreted_of_evaluate (h : History e trees) (hu : options.mode = .accelerated → Unambiguous trees)
    (hc : c.root ∈ trees) (run : evaluate c ctx this vars options e = .ok v e') :
    ∃ m, Eval.program options.fuel (e.frameOf c.runtime ctx this vars .interpreted options.watched) c.root
      (e.started c.runtime vars).machine = .ok v m := by
  rw [evaluate_eq] at run
  obtain ⟨m, hrun, -⟩ := onMachine_eq_ok.mp run
  cases hmode : options.mode with
  | interpreted => rw [hmode] at hrun; exact ⟨m, hrun⟩
  | accelerated =>
    rw [hmode] at hrun
    have hready := h.ready (hu hmode)
    obtain ⟨paths, hfaithful⟩ := hready.faithful
    have hjoined := hready.sim_program (hu hmode) hc c.runtime ctx this vars options.watched options.fuel paths
      e.machine.accel paths (List.prefix_refl _) (e.started c.runtime vars).machine (e.started c.runtime vars).machine
      ⟨rfl, rfl, rfl, rfl, hfaithful⟩
    rw [hrun] at hjoined
    generalize Eval.program options.fuel (e.frameOf c.runtime ctx this vars .interpreted options.watched) c.root _ = o
      at hjoined
    cases hjoined with
    | ok le alike => exact ⟨_, rfl⟩

/-- Evaluated interpreted, no place that the static type of a program rests on breaks its promise. -/
def KeepsPromises (e : Engine) (c : CompiledExpression) (ctx this : Value) (vars : Option Variables) (watched : Bool)
    (fuel : Nat) : Prop :=
  let f := e.frameOf c.runtime ctx this vars .interpreted watched
  let m := (e.started c.runtime vars).machine
  Eval.programKept c.root.Grounds fuel f c.root m = Eval.program fuel f c.root m

/-- The static type of a program is what the program gives, in either mode and after any history of the engine, if all
its returns have that type and one of three holds.

- No place that the type rests on breaks its promise on the way: at every such place the value is what the static type
  of the place promises.
- The type rests on no place. If types are not verified, a path or an increment has none that says anything, so only what
  assignments and `new` give is in the way.
- The program only reads names, and those that its type rests on are given values of their types at the start, by
  variables, imports or maps.

An assignment gives what its target has stored, which a declared type may have converted, while its static type is that
of the value on its right; so the first condition cannot be left out. -/
theorem result_meets_egressType {e₀ e₁ : Engine} {source : String} {given : CompileOptions}
    (compiled : compile source given e₀ = .ok c e₁) (hconverter : e₀.converter.Typed)
    (hreturns : ∀ r : Node, r.Within c.root → ∀ value, r.kind = .returns value → r.egress = c.egressType)
    (h : History e trees) (hu : options.mode = .accelerated → Unambiguous trees) (hc : c.root ∈ trees)
    (run : evaluate c ctx this vars options e = .ok v e') :
    let f := e.frameOf c.runtime ctx this vars .interpreted options.watched
    let st := (e.started c.runtime vars).machine.store
    (e.KeepsPromises c ctx this vars options.watched options.fuel → v.Meets c.egressType) ∧
    ((∀ p, ¬ c.root.Grounds p) → v.Meets c.egressType) ∧
    ((∀ n : Node, n.Occurs c.root → n.onlyReads = true) → (∀ r ∈ [this, ctx], r.isPlainReceiver st.heap = true) →
      (∀ p, c.root.Grounds p → ∀ name ∈ p.name?, ∃ w ∈ f.given? st name, w.Meets p.egress) → v.Meets c.egressType) := by
  intro f st
  have hroot : IsStatement given.verifies c.root := statement_of_compile compiled
  have hplain : f.Plain := ⟨rfl, by rw [show f.runtime = _ from runtime_of_compile compiled]; exact hconverter⟩
  obtain ⟨m, hprogram⟩ := interpreted_of_evaluate h hu hc run
  have hkept : e.KeepsPromises c ctx this vars options.watched options.fuel → v.Meets c.egressType :=
    fun hkept => meets_programKept hplain hroot hreturns (hkept.trans hprogram)
  refine ⟨hkept, fun hnone => hkept ?_, fun hreads hreceivers hgiven => hkept ?_⟩
  · unfold KeepsPromises Eval.programKept Eval.program
    rw [Eval.kept_eq_node hnone]
  · have hreceivers : ∀ r ∈ f.receivers, r.isPlainReceiver st.heap = true := hreceivers
    exact programKept_eq_of_given hreceivers hgiven (fun p hp => hp.1) rfl rfl hroot hreads options.fuel

/-- A verified formula with an early return, over an entry of the context, and a program with a declaration and an
increment whose type rests on no place. -/
theorem result_meets_egressType_early_return : ∃ (e : Engine) (trees : List Node) (c c' : CompiledExpression) (ctx : Value),
    History e trees ∧ c.root ∈ trees ∧ c'.root ∈ trees ∧ c.egressType = .int ∧ c'.egressType = .str ∧
      (∃ v e', evaluate c ctx .null none ⟨.accelerated, false, 20⟩ e = .ok v e' ∧ v = .int 24 ∧ v.Meets c.egressType) ∧
      ∃ v e', evaluate c' ctx .null none ⟨.accelerated, false, 20⟩ e = .ok v e' ∧ v = .str "a8" ∧
        v.Meets c'.egressType := by
  let e₀ : Engine := .new .standard fun _ => 0
  let given : CompileOptions := { CompileOptions.standard with verify := true, inputs := Dict.empty.insert "n" .int }
  let context (h : Heap) : Value × Heap := h.newMap (Dict.empty.insert "n" (.int 12))
  let options : EvalOptions := ⟨.accelerated, false, 20⟩
  have h : (compile "if (n > 9) \x7b return n * 2 \x7d n + 1" given e₀).okAnd (fun c e₁ =>
      (compile "int k = '7'; k++; k > 3 ? 'a' + k : 'b'" .standard e₁).okAnd fun c' e₂ =>
      (stepStore (Store.making context) e₂).okAnd fun ctx e₃ =>
      (evaluate c ctx .null none options e₃).okAnd fun v e₄ =>
      (evaluate c' ctx .null none options e₃).okAnd fun v' e₅ =>
        let f := e₃.frameOf c.runtime ctx .null none .interpreted false
        let st := (e₃.started c.runtime none).machine.store
        decide (c.egressType = .int) && decide (c'.egressType = .str) && decide (v = .int 24) && decide (v' = .str "a8") &&
        decide (∀ r ∈ [Value.null, ctx], r.isPlainReceiver st.heap = true) &&
        c.root.holdsWithin (fun n => n.targetsName && (n.goesOn || decide (n.egress = .int)) && n.onlyReads &&
          decide (∀ name ∈ n.name?, ∃ w ∈ f.given? st name, w.Meets n.egress)) 12 &&
        c'.root.holdsWithin (fun n => n.targetsName && (n.goesOn || decide (n.egress = .str)) &&
          !(n.isPlace && n.egress.isKnown)) 12) = true := by
    decide +kernel
  simp only [Outcome.okAnd_iff, Bool.and_eq_true, decide_eq_true_eq] at h
  obtain ⟨c, e₁, hcompiled, c', e₂, hcompiled', ctx, e₃, hctx, v, e₄, hrun, v', e₅, hrun', ⟨⟨⟨⟨⟨hty, hty'⟩, hv⟩, hv'⟩,
      hreceivers⟩, hwithin⟩, hwithin'⟩ := h
  have holds {n : Node} (hn : n.Occurs c.root) := Node.of_holdsWithin hwithin hn
  have holds' {n : Node} (hn : n.Occurs c'.root) := Node.of_holdsWithin hwithin' hn
  simp only [Bool.and_eq_true, Bool.or_eq_true, decide_eq_true_eq] at holds holds'
  have hconverter : Converter.Typed e₀.converter :=
    ConversionRegistry.converter_typed (r := .empty) nofun
  have hconverter' : e₁.converter.Typed := by
    obtain ⟨p, -, -, rfl⟩ := exists_of_compile hcompiled
    exact hconverter
  have hhistory : History e₃ [c'.root, c.root] :=
    .host (.compile (.compile (.start rfl rfl rfl) hcompiled) hcompiled') (.of_ok hctx)
  have hu : options.mode = .accelerated → Unambiguous [c'.root, c.root] := by
    refine fun _ => unambiguous_of_targets (hhistory.keeps lasting_faithful).1.grown fun n hn p site ht => ?_
    obtain ⟨t, ht', hn⟩ := hn
    rcases List.mem_pair.mp ht' with rfl | rfl
    · exact Node.ne_base_of_targetsName (holds' hn).1.1 ht
    · exact Node.ne_base_of_targetsName (holds hn).1.1.1 ht
  have hreturns {n : Node} {ty : Ty} {value : Option Node} (hn : n.goesOn = true ∨ n.egress = ty)
      (hk : n.kind = .returns value) : n.egress = ty :=
    hn.resolve_left (by rw [Node.goesOn_of_returns hk]; decide)
  have hmeets := (result_meets_egressType hcompiled hconverter
    (fun r hr value hk => (hreturns (holds hr.occurs).1.1.2 hk).trans hty.symm) hhistory hu (by simp) hrun).2.2
    (fun n hn => (holds hn).1.2) hreceivers fun p hp => (holds hp.occurs.1).2
  have hmeets' := (result_meets_egressType hcompiled' hconverter'
    (fun r hr value hk => (hreturns (holds' hr.occurs).1.2 hk).trans hty'.symm) hhistory hu (by simp) hrun').2.1
    fun p hp => by
      have hno := (holds' hp.occurs.1).2
      rw [hp.occurs.2.1, hp.occurs.2.2] at hno
      cases hno
  exact ⟨e₃, [c'.root, c.root], c, c', ctx, hhistory, by simp, by simp, hty, hty', ⟨v, e₄, hrun, hv, hmeets⟩,
    v', e₅, hrun', hv', hmeets'⟩

/-- A declared type converts what is assigned, and the static type of the assignment is that of the text. -/
theorem egressType_of_converted : ∃ (c : CompiledExpression) (e e' e'' : Engine),
    compile "int n = 0; n = '5'" .standard (.new .standard fun _ => 0) = .ok c e ∧ c.egressType = .str ∧
      evaluate c .null .null none ⟨.interpreted, false, 20⟩ e = .ok (.int 5) e' ∧
      evaluate c .null .null none ⟨.accelerated, false, 20⟩ e = .ok (.int 5) e'' ∧ ¬ (Value.int 5).Meets c.egressType := by
  have h : (compile "int n = 0; n = '5'" .standard (.new .standard fun _ => 0)).okAnd (fun c e =>
      decide (c.egressType = .str) &&
      (evaluate c .null .null none ⟨.interpreted, false, 20⟩ e).okAnd (fun v _ => decide (v = .int 5)) &&
      (evaluate c .null .null none ⟨.accelerated, false, 20⟩ e).okAnd fun v _ => decide (v = .int 5)) = true := by
    decide +kernel
  simp only [Outcome.okAnd_iff, Bool.and_eq_true, decide_eq_true_eq] at h
  obtain ⟨c, e, hcompiled, ⟨hty, v, e', hrun, rfl⟩, v', e'', hrun', rfl⟩ := h
  refine ⟨c, e, e', e'', hcompiled, hty, hrun, hrun', ?_⟩
  rw [hty]
  decide

end Engine

end PathScript
