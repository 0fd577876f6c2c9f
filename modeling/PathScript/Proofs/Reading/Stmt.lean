import PathScript.Proofs.Reading.Expr

/-! # Reading statements

Statements are read as expressions are; besides, they complete functions. Every
function that was completed is declared by a node of the trees that were made, so
that nothing is known of a function but what is known of the trees.

A list of statements that was read has been read to its end, and so has every
group in it. For that the empty name at which a stream is stuck must not be taken
for an end: it is a statement of its own, behind which a semicolon is missing. -/

namespace PathScript

namespace Compile

open Tokens (Stream Moves)

variable {w : Prop} {α : Type} {env : Env} {st st' : State} {lo hi : Nat} {ts : Tokens} {keyword : Span} {n : Node}

abbrev Env.Stmt (env : Env) : Node → Prop := IsStatement env.options.verifies

/-! ## Functions -/

/-- A function was begun, with its parameters in its first registers. -/
structure State.Enters (st : State) (params : List Param) (st' : State) : Prop where
  nextSite : st'.nextSite = st.nextSite
  functions : st'.functions = st.functions
  layouts : st'.layouts = ⟨params.map (·.name), []⟩ :: st.layouts

/-- A function was completed. -/
structure State.Completes (st : State) (name : String) (params : List Param) (body : Node) (f : Function) (st' : State) :
    Prop where
  name : f.name = name
  params : f.params = params
  body : f.body = body
  nextSite : st'.nextSite = st.nextSite
  functions : st'.functions = f :: st.functions
  layouts : ∀ l outer, st.layouts = l :: outer → f.layout = l ∧ st'.layouts = outer

/-- The layout of a function has grown from that of its parameters while its body was read. -/
theorem Held.laidOut {st₁ st₂ : State} {name : String} {params : List Param} {f : Function} (h : Held w env st₁ st₂ [n])
    (hp : (params.map (·.name)).Nodup) (hin : st.Enters params st₁) (hout : st₂.Completes name params n f st') :
    f.LaidOut ∧ st'.layouts = st.layouts := by
  have hgrow := h.layouts
  rw [hin.layouts] at hgrow
  cases hls : st₂.layouts with
  | nil => rw [hls] at hgrow; cases hgrow
  | cons l outer =>
    rw [hls] at hgrow
    obtain ⟨rfl, houter⟩ := hout.layouts _ _ hls
    cases hgrow with
    | inside hgrows =>
      refine ⟨⟨hgrows.distinct ⟨hp, List.nodup_nil, List.disjoint_nil_right _⟩, ?_, fun m hm => ?_⟩, houter⟩
      · rw [hout.params]
        exact hgrows.registers
      · have hbound := h.bound n (List.mem_singleton_self n) m (hout.body ▸ hm)
        rwa [hls] at hbound

/-- Parameters with different names, none of which is a reserved word. -/
structure Bindable (params : List Param) : Prop where
  nodup : (params.map (·.name)).Nodup
  free : ∀ p ∈ params, isReserved p.name = false

theorem Held.function {st₁ st₂ : State} {name : String} {params : List Param} {f : Function} (h : Held w env st₁ st₂ [n])
    (hname : isReserved name = false) (hp : Bindable params) (hin : st.Enters params st₁)
    (hout : st₂.Completes name params n f st') {i : Info} (hlies : env.Lies ⟨i, .functionDecl f⟩) :
    Held w env st st' [⟨i, .functionDecl f⟩] := by
  obtain ⟨hlaid, hlayouts⟩ := h.laidOut hp.nodup hin hout
  have hgrown := h.grown
  have hle := h.le
  have hbelow := h.lies
  rw [hin.nextSite, ← hout.nextSite] at hgrown hle
  rw [← hout.body] at hbelow
  refine ⟨hle, hlayouts ▸ .refl _, ?_, fun m hm => hm.cons_cases.elim (· ▸ hlies) (hbelow m),
    List.forall_mem_singleton.mpr fun m hm => ?_, fun g hg => ?_⟩
  · have hbody : GrownIf w (Path.Quotes env.source) st.nextSite st'.nextSite ([f.body] ++ []) := hout.body ▸ hgrown
    exact GrownIf.node (n := ⟨i, .functionDecl f⟩) hbody (fun _ => ⟨hlaid, hout.name ▸ hname, hout.params ▸ hp.free⟩)
      nofun (Nat.le_refl _)
  · cases hm with
    | here => exact nofun
    | under child => cases child
  · rcases List.mem_cons.mp (hout.functions ▸ hg) with rfl | hg
    · exact .inr ⟨_, ⟨_, List.mem_singleton_self _, .here _⟩, rfl⟩
    · rw [← hin.functions]
      refine (h.functions g hg).imp_right fun ⟨m, hm, hkind⟩ => ⟨m, ?_, hkind⟩
      exact Node.Among.of_children (n := ⟨i, .functionDecl f⟩) (by rw [← hout.body] at hm; exact hm)

theorem settles_completeFunction (name : String) (params : List Param) (body : Node) (span : Span) (st : State) :
    Settles env st (completeFunction name params body span) (st.Completes name params body) := by
  refine ⟨rfl, rfl, rfl, rfl, rfl, fun l outer hls => ?_⟩
  simp only [Function.layout, hls, List.head?_cons, Option.getD_some, List.tail_cons, and_self]

theorem builds_function {params : List Param} {name : String} {span : Span} {rest : Tokens} {x : CompileM Node}
    (hname : isReserved name = false) (hp : Bindable params) (hspan : Passed w env.source lo hi span rest)
    (le : rest.size ≤ ts.size)
    (hx : Builds w env [] x (fun n => [n]) fun n => span.Holds n.span ∧ env.Stmt n ∧ Moves ts rest) :
    Reads w env lo hi env.Stmt (do
      CompileM.modify fun st => { st with layouts := ⟨params.map (·.name), []⟩ :: st.layouts }
      let n ← x
      let f ← completeFunction name params n span
      return (⟨← node span .void (.functionDecl f), rest, le⟩ : Parsed ts)) := by
  intro st₀ st others hheld
  have enters : Settles env st (CompileM.modify fun st => { st with layouts := ⟨params.map (·.name), []⟩ :: st.layouts })
      fun _ => st.Enters params := ⟨rfl, rfl, rfl⟩
  refine enters.bind fun _ st₁ hin => (hx st₁ st₁ [] (.nil (.refl st₁))).bind fun n st₂ hn => ?_
  refine (settles_completeFunction name params n span st₂).bind fun f st₃ hout => (quiet_node _ _ _ st₃).bind ?_
  rintro decl st₄ ⟨hk, rfl⟩
  obtain ⟨hbody, haround, hstmt, hm⟩ := hn
  have hlies : env.Lies ⟨env.info span .void, .functionDecl f⟩ :=
    env.lies hspan.toIn (.refl [f.body]) (List.forall_mem_singleton.mpr (hout.body ▸ haround))
  have hdecl := (hbody.function hname hp hin hout hlies).keeps hk
  refine .pure ⟨(hheld.append hdecl).perm List.perm_append_comm, hspan, .functionDecl ?_ rfl, hm⟩
  rw [hout.body]
  exact hstmt

/-! ## Parts that read no statement -/

theorem builds_condition (h : Stream w env.source lo hi ts) : Reads w env lo hi env.Expr (condition ts) := by
  refine (quiet_expect h (.group .paren) _).andThen fun group hgroup => ?_
  obtain ⟨group, rest, lt⟩ := group
  obtain ⟨hgroup, hkind⟩ := hgroup
  refine (builds_wholeExpr group.inner (hgroup.inside hkind) (hgroup.inner hkind)).bind fun n hn => .pure rfl ?_
  exact ⟨.of_between (hn.1.span.mono hgroup.passed.lower (Nat.le_refl _)) hgroup.passed.after, hn.1.form,
    hgroup.group hn.2⟩

/-- The head of a `for` over items, of which the subject is left to be read. -/
structure EachHead.Stands (source : List Char) (ts : Tokens) (e : EachHead) : Prop where
  item : e.item.span.In source
  start : IsPlace source e.start
  moves : Moves ts e.subject

theorem quiet_eachHead? (h : Stream w env.source lo hi ts) : Quiet env (eachHead? ts) fun r =>
    ∀ e, r = some e → e.Stands env.source ts := by
  refine .bind (quiet_takeName? h) fun found hfirst => ?_
  cases found with
  | none => exact .pure nofun
  | some first =>
    have hfirst := hfirst _ rfl
    refine .bind (quiet_takeKind? hfirst.after .colon) fun found hcolon => ?_
    cases found with
    | some colon =>
      obtain ⟨hcolon, hkind⟩ := hcolon _ rfl
      refine .pure fun _ he => ?_
      cases he
      exact ⟨hfirst.toIn, hcolon.span.stop, hfirst.moves.trans (hcolon.plain hkind rfl)⟩
    | none =>
      refine .bind (quiet_takeName? hfirst.after) fun found hitem => ?_
      cases found with
      | none => exact .pure nofun
      | some item =>
        have hitem := hitem _ rfl
        refine .bind (quiet_takeKind? hitem.after .colon) fun found hcolon => ?_
        cases found with
        | none => exact .pure nofun
        | some colon =>
          obtain ⟨hcolon, hkind⟩ := hcolon _ rfl
          refine .bind (quiet_typeOfToken hfirst.toIn) fun ty _ => .pure fun _ he => ?_
          cases he
          have hm := hfirst.moves.trans hitem.moves
          exact ⟨hitem.toIn, hcolon.span.stop, hm.trans (hcolon.plain hkind rfl)⟩

theorem quiet_parameter (h : Stream w env.source lo hi ts) : Quiet env (parameter ts) fun p =>
    p.value.1.span.In env.source ∧ Moves ts p.rest := by
  refine .bind (quiet_expectName h _) fun first hfirst => ?_
  refine .bind (quiet_takeName? hfirst.after) fun found hname => ?_
  cases found with
  | none => exact .pure ⟨hfirst.toIn, hfirst.moves⟩
  | some name =>
    have hname := hname _ rfl
    exact .bind (quiet_typeOfToken hfirst.toIn) fun _ _ => .pure ⟨hname.toIn, hfirst.moves.trans hname.moves⟩

theorem quiet_parameters (params : List Param) (ts : Tokens) {lo hi : Nat} (h : Stream w env.source lo hi ts)
    (hp : Bindable params) : Quiet env (parameters params ts) fun ps => Bindable ps ∧ ts.Whole := by
  unfold parameters
  refine .bind (quiet_atEnd h) fun _ hend => .ite (fun hb => .pure ⟨hp, hend hb⟩) fun _ => ?_
  refine .bind (quiet_parameter h) fun found hfound => ?_
  obtain ⟨⟨name, ty⟩, rest, le⟩ := found
  refine .bind (quiet_bindable hfound.1) fun param hfree => .ite (fun _ => .fail (by simp) hfound.1.start) fun hnew => ?_
  have hp' : Bindable (params ++ [⟨param, ty⟩]) := by
    refine ⟨?_, List.forall_mem_append.mpr ⟨hp.free, List.forall_mem_singleton.mpr hfree⟩⟩
    rw [List.map_append]
    refine List.nodup_append'.mpr ⟨hp.nodup, List.nodup_singleton _, List.disjoint_singleton.mpr fun hmem => hnew ?_⟩
    obtain ⟨p, hmem, heq⟩ := List.mem_map.mp hmem
    exact List.any_eq_true.mpr ⟨p, hmem, beq_iff_eq.mpr heq⟩
  refine .bind (quiet_separator (hfound.2.stream h) isGroup_of_isComma) fun found hsep => ?_
  cases found with
  | done => exact .pure ⟨hp', hfound.2.whole hsep⟩
  | more rest' lt =>
    have hm := hfound.2.trans hsep
    exact (quiet_parameters _ rest' (hm.stream h) hp').imp fun _ hps => ⟨hps.1, hm.whole hps.2⟩
termination_by ts.size

theorem quiet_importName (h : Stream w env.source lo hi ts) : Quiet env (importName ts) fun n =>
    Passed w env.source lo hi n.token.span n.rest ∧ Moves ts n.rest := by
  refine .bind (quiet_expectName h _) fun first hfirst => ?_
  refine .ite (fun _ => ?_) fun _ => .pure ⟨hfirst.toPassed, hfirst.moves⟩
  refine .bind (quiet_takeName? hfirst.after) fun found hname => ?_
  cases found with
  | none => exact .pure ⟨hfirst.toPassed, hfirst.moves⟩
  | some name =>
    have hname := hname _ rfl
    exact .pure ⟨hname.toPassed.beyond hfirst.toBetween, hfirst.moves.trans hname.moves⟩

theorem quiet_importValue {name : Token} (h : name.span.In env.source) : Quiet env (importValue name) fun _ => True := by
  refine .bind .ask fun e _ => ?_
  split
  · exact .pure trivial
  · exact .fail (by simp) h.start

theorem builds_behind {last : Span} {rest : Tokens} {le : rest.size ≤ ts.size} {parts : List Node} {egress : Ty}
    {kind : NodeKind} (hk : Passed w env.source lo hi keyword ts) (hlast : Passed w env.source keyword.stop hi last rest)
    (hm : Moves ts rest) (hsimple : NodeKind.isSimple kind = true)
    (hparts : parts.Perm (Node.children ⟨env.info (keyword.cover last) egress, kind⟩))
    (haround : ∀ m ∈ parts, keyword.stop ≤ m.span.start ∧ m.span.stop ≤ last.stop)
    (hform : env.Stmt ⟨env.info (keyword.cover last) egress, kind⟩) :
    Builds w env parts (node (keyword.cover last) egress kind >>= fun n => pure (⟨n, rest, le⟩ : Parsed ts))
      (fun a => [a.node]) (Parsed.Stands w env lo hi env.Stmt) := by
  have hp := hlast.cover hk.toBetween
  refine builds_parsed hp hm (builds_node hp.toIn (fun m hm => ?_) hsimple hparts hform)
  exact .cover (Nat.le_trans hk.le (haround m hm).1) (haround m hm).2

theorem builds_importStmt (hk : Passed w env.source lo hi keyword ts) :
    Reads w env lo hi env.Stmt (importStmt keyword ts) := by
  refine (quiet_importName hk.after).andThen fun first hfirst => ?_
  refine (quiet_lastName hfirst.1 _).andThen fun last hlast => ?_
  refine (quiet_importValue hlast.toIn).andThen fun value _ => ?_
  refine Quiet.andThen (.modify (by exact fun _ => ⟨rfl, rfl, .refl _⟩)) fun _ _ => ?_
  exact builds_behind hk hlast.toPassed (hfirst.2.trans hlast.moves) rfl (.refl _) (by simp) (.imports rfl)

theorem Parsed.Stands.last {P : Node → Prop} {a : Parsed ts} (h : a.Stands w env lo hi P) :
    ∀ m ∈ [a.node], lo ≤ m.span.start ∧ m.span.stop ≤ a.node.span.stop :=
  List.forall_mem_singleton.mpr ⟨h.lower, Nat.le_refl _⟩

theorem builds_assertStmt (hk : Passed w env.source lo hi keyword ts) :
    Reads w env lo hi env.Stmt (assertStmt keyword ts) := by
  refine (builds_expr ts hk.after).bind fun n hn => (quiet_sourceText hn.toIn).andThen fun text _ => ?_
  exact builds_behind hk hn.toPassed hn.moves rfl (.refl _) hn.last (.asserts hn.form rfl)

theorem builds_returnStmt (hk : Passed w env.source lo hi keyword ts) :
    Reads w env lo hi env.Stmt (returnStmt keyword ts) := by
  refine (quiet_peek hk.after).andThen fun next _ => .ite (fun _ => ?_) fun _ => ?_
  · exact builds_parsed hk (.refl ts) (builds_node hk.toIn (by simp) rfl (.refl _) (.returns (by simp) rfl))
  · refine (builds_expr ts hk.after).bind fun n hn => builds_behind hk hn.toPassed hn.moves rfl (.refl _) hn.last ?_
    exact .returns (fun m hm => by cases hm; exact hn.form) rfl

/-- The head of a declaration, of which the value is left to be read. -/
structure DeclHead.Stands (w : Prop) (source : List Char) (lo hi : Nat) (d : DeclHead ts) : Prop where
  ty : d.tyToken.span.Between source lo hi
  name : Passed w source d.tyToken.span.stop hi d.name.span d.rest
  moves : Moves ts d.rest

section Stream

variable (h : Stream w env.source lo hi ts)
include h

theorem quiet_declHead? : Quiet env (declHead? ts) fun r =>
    ∀ d, r = some d → d.Stands w env.source lo hi := by
  have noHead : Quiet env (pure (none : Option (DeclHead ts))) fun r => ∀ d, r = some d → d.Stands w env.source lo hi :=
    .pure nofun
  refine .bind (quiet_takeName? h) fun found hty => ?_
  cases found with
  | none => exact noHead
  | some tyToken =>
    have hty := hty _ rfl
    refine .bind (quiet_typeNamed _) fun ty _ => ?_
    cases ty with
    | none => exact noHead
    | some ty =>
      refine .bind (quiet_takeName? hty.after) fun found hname => ?_
      cases found with
      | none => exact noHead
      | some name =>
        have hname := hname _ rfl
        have hm := hty.moves.trans hname.moves
        refine .ite (fun _ => noHead) fun _ => .bind (quiet_takeKind? hname.after _) fun found hsign => ?_
        cases found with
        | some sign =>
          obtain ⟨hsign, hkind⟩ := hsign _ rfl
          have hm' := hsign.plain hkind rfl
          refine .pure fun _ he => ?_
          cases he
          exact ⟨hty.toBetween, ⟨hname.toBetween, hm'.stream hname.after⟩, hm.trans hm'⟩
        | none =>
          refine .bind (quiet_peek hname.after) fun next _ => .ite (fun _ => .pure fun _ he => ?_) fun _ => noHead
          cases he
          exact ⟨hty.toBetween, hname.toPassed, hm⟩

theorem builds_optionalExpr (isThere : Bool) :
    Builds w env [] (optionalExpr isThere ts) (fun p => p.value.toList) fun p =>
      Moves ts p.rest ∧ Stream w env.source lo hi p.rest ∧
        ∀ n ∈ p.value, Passed w env.source lo hi n.span p.rest ∧ env.Expr n := by
  refine .ite (fun _ => ?_) fun _ => .pure rfl ⟨.refl ts, h, nofun⟩
  refine (builds_expr ts h).bind fun n hn => .pure rfl ⟨hn.moves, hn.moves.stream h, fun _ he => ?_⟩
  cases he
  exact ⟨hn.toPassed, hn.form⟩

theorem builds_declaration? :
    Builds w env [] (declaration? ts) (fun r => (r.map (·.node)).toList) fun r =>
      ∀ n, r = some n → n.Stands w env lo hi env.Stmt := by
  refine (quiet_declHead? h).andThen fun found hhead => ?_
  cases found with
  | none => exact .pure rfl nofun
  | some head =>
    have hhead := hhead _ rfl
    obtain ⟨ty, tyToken, nameToken, hasValue, rest, le⟩ := head
    refine (quiet_bindable hhead.name.toIn).andThen fun name hfree => ?_
    refine (builds_optionalExpr hhead.name.after hasValue).bind fun value hvalue => ?_
    obtain ⟨value, rest', le'⟩ := value
    obtain ⟨hm, hrest, hvalue⟩ := hvalue
    refine (quiet_declare hhead.name.start _ _).andThen fun _ _ st₀ st others hheld => ?_
    refine (settles_allocate name st).bind fun register st₁ h₁ => (quiet_node _ _ _ st₁).bind ?_
    rintro n st₂ ⟨hk, rfl⟩
    have hlast : Passed w env.source tyToken.span.stop hi ((value.map Node.span).getD nameToken.span) rest' := by
      cases value with
      | none => exact ⟨hhead.name.toBetween, hrest⟩
      | some n => exact (hvalue n rfl).1.beyond hhead.name.toBetween
    have hp := hlast.cover hhead.ty
    refine .pure ⟨.plain hheld (h₁.1.trans hk) (env.lies hp.toIn (.refl _) ?_) (fun _ => hfree) ?_ rfl, fun _ he => ?_⟩
    · intro m hm
      cases Option.mem_toList.mp hm
      exact .right _ _
    · rintro b ⟨⟩
      exact h₁.2.mono hk.layouts
    · cases he
      refine ⟨hp, .declaration (fun m hm => (hvalue m hm).2) ?_, hhead.moves.trans hm⟩
      cases ty <;> cases value <;> rfl

theorem builds_plainStmt :
    Builds w env [] (plainStmt ts) (fun s => [s.node]) fun s => s.toParsed.Stands w env lo hi env.Stmt := by
  refine (builds_declaration? h).bind fun found hfound => ?_
  cases found with
  | some n => exact .pure rfl (hfound n rfl)
  | none => exact (builds_expr ts h).bind fun n hn => .pure rfl ⟨hn.toPassed, .expression hn.form, hn.moves⟩

theorem builds_forCondition :
    Builds w env [] (forCondition ts) (fun p => p.value.toList) fun p =>
      Moves ts p.rest ∧ ∀ n ∈ p.value, env.Stands lo hi env.Expr n :=
  (quiet_peek h).andThen fun _ _ => (builds_optionalExpr h _).imp fun _ hp =>
    ⟨hp.1, fun n hn => ⟨(hp.2.2 n hn).1.toBetween, (hp.2.2 n hn).2⟩⟩

theorem builds_forStep :
    Builds w env [] (forStep ts) Option.toList fun step => ts.Whole ∧ ∀ n ∈ step, env.Stands lo hi env.Expr n := by
  refine (quiet_atEnd h).andThen fun _ hend => .ite (fun hb => .pure rfl ⟨hend hb, nofun⟩) fun _ => ?_
  refine (builds_expr ts h).bind fun n hn => (quiet_expectEnd hn.after).andThen fun _ hw => .pure rfl ?_
  exact ⟨hn.moves.whole hw, fun _ he => by cases he; exact hn.stands⟩

end Stream

theorem quiet_tailLoop {word : Token} (h : word.span.In env.source) : Quiet env (tailLoop word) fun _ => True :=
  .ite (fun _ => .pure trivial) fun _ => .ite (fun _ => .pure trivial) fun _ => quiet_unexpected h

/-- The parts of a chain of branches. -/
def Chain.nodes (c : Chain ts) : List Node := (c.branches.flatMap fun b => [b.1, b.2]) ++ c.otherwise.toList

/-- The branches behind the first one of a chain, up to the last span in them. -/
structure Chain.Stands (w : Prop) (env : Env) (lo hi : Nat) (c : Chain ts) : Prop extends
    Passed w env.source lo hi c.last c.rest where
  moves : Moves ts c.rest
  branches : ∀ b ∈ c.branches, env.Stands lo c.last.stop env.Expr b.1 ∧ env.Stands lo c.last.stop env.Stmt b.2
  otherwise : ∀ m ∈ c.otherwise, env.Stands lo c.last.stop env.Stmt m

theorem Chain.Stands.nodes {c : Chain ts} (h : c.Stands w env lo hi) :
    ∀ m ∈ c.nodes, m.span.Between env.source lo c.last.stop := by
  refine List.forall_mem_append.mpr ⟨fun m hm => ?_, fun m hm => (h.otherwise m (Option.mem_toList.mp hm)).span⟩
  obtain ⟨b, hb, hm⟩ := List.mem_flatMap.mp hm
  rcases List.mem_pair.mp hm with rfl | rfl
  · exact (h.branches b hb).1.span
  · exact (h.branches b hb).2.span

theorem perm_children_loop (i : Info) (kind : LoopKind) (init cond step : Option Node) (n : Node) :
    (init.toList ++ cond.toList ++ step.toList ++ [n]).Perm (Node.children ⟨i, .loop kind init cond step n⟩) := by
  unfold Node.children
  dsimp only
  split
  · exact List.perm_append_comm
  · exact .refl _

/-! ## Statements -/

mutual

theorem builds_statements (ts : Tokens) {lo hi : Nat} (h : Stream w env.source lo hi ts) :
    Builds w env [] (statements ts) (fun ns => ns) fun ns => ts.Whole ∧ ∀ n ∈ ns, env.Stands lo hi env.Stmt n := by
  unfold statements
  refine (quiet_takeKind? h .semicolon).andThen fun found hfound => ?_
  cases found with
  | some sign =>
    obtain ⟨sign, rest, lt⟩ := sign
    obtain ⟨hsign, hkind⟩ := hfound _ rfl
    have hm := hsign.plain hkind rfl
    exact (builds_statements rest (hm.stream h)).imp fun _ hns => ⟨hm.whole hns.1, hns.2⟩
  | none =>
    refine (quiet_atEnd h).andThen fun _ hend => .ite (fun hb => .pure rfl ⟨hend hb, nofun⟩) fun _ => ?_
    refine (builds_statement ts h).bind fun n hn => ?_
    obtain ⟨⟨n, rest, le⟩, closed, lt⟩ := n
    have hrest : Stream w env.source lo hi rest := hn.moves.stream h
    refine (quiet_takeKind? hrest .semicolon).andThen fun found hfound => ?_
    cases found with
    | some sign =>
      obtain ⟨sign, rest', lt⟩ := sign
      obtain ⟨hsign, hkind⟩ := hfound _ rfl
      have hle : rest.size ≤ ts.size := le
      have hm := hn.moves.trans (hsign.plain hkind rfl)
      refine .read (builds_statements rest' (hm.stream h)) fun _ hns => .pure rfl ?_
      exact ⟨hm.whole hns.1, List.forall_mem_cons.mpr ⟨hn.stands, hns.2⟩⟩
    | none =>
      refine (quiet_peek hrest).andThen fun next hnext => .ite (fun hk => .pure rfl ?_) fun _ => ?_
      · exact ⟨hn.moves.whole (hnext.whole (beq_iff_eq.mp hk)), List.forall_mem_singleton.mpr hn.stands⟩
      cases closed with
      | false => exact .fail (by simp) hnext.span.start
      | true =>
        have hlt : rest.size < ts.size := lt rfl
        refine .read (builds_statements rest hrest) fun _ hns => .pure rfl ?_
        exact ⟨hn.moves.whole hns.1, List.forall_mem_cons.mpr ⟨hn.stands, hns.2⟩⟩
termination_by ts.size * 8 + 6

theorem builds_statement (ts : Tokens) {lo hi : Nat} (h : Stream w env.source lo hi ts) :
    Builds w env [] (statement ts) (fun s => [s.node]) fun s => s.toParsed.Stands w env lo hi env.Stmt := by
  unfold statement
  refine (quiet_take? h _).andThen fun found hfound => ?_
  cases found with
  | none => exact builds_plainStmt h
  | some t =>
    obtain ⟨t, rest, lt⟩ := t
    obtain ⟨ht, hkind⟩ := hfound
    have hm : Moves ts rest := ht.plain (beq_iff_eq.mp hkind) rfl
    have hp : Passed w env.source lo hi t.span rest := ht.passed
    -- What is behind the word is read by a reader of its own.
    have behind : ∀ {x : CompileM (Parsed rest)} {f : Parsed rest → Statement ts},
        Reads w env lo hi env.Stmt x → (∀ n, (f n).node = n.node ∧ (f n).rest = n.rest) →
        Builds w env [] (x >>= fun n => pure (f n)) (fun s => [s.node]) fun s =>
          s.toParsed.Stands w env lo hi env.Stmt := by
      refine fun hx hf => hx.bind fun n hn => .pure (congrArg (fun m => [m]) (hf n).1) ⟨?_, ?_, ?_⟩
      · exact (hf n).1 ▸ (hf n).2 ▸ hn.toPassed
      · exact (hf n).1 ▸ hn.form
      · exact (hf n).2 ▸ hm.trans hn.moves
    refine .ite (fun _ => behind (builds_ifStmt rest hp) fun _ => ⟨rfl, rfl⟩) fun _ => ?_
    refine .ite (fun _ => behind (builds_forStmt rest hp) fun _ => ⟨rfl, rfl⟩) fun _ => ?_
    refine .ite (fun _ => behind (builds_whileStmt _ rest hp) fun _ => ⟨rfl, rfl⟩) fun _ => ?_
    refine .ite (fun _ => behind (builds_whileStmt _ rest hp) fun _ => ⟨rfl, rfl⟩) fun _ => ?_
    refine .ite (fun _ => behind (builds_doStmt rest hp) fun _ => ⟨rfl, rfl⟩) fun _ => ?_
    refine .ite (fun _ => behind (builds_functionStmt rest hp) fun _ => ⟨rfl, rfl⟩) fun _ => ?_
    refine .ite (fun _ => behind (builds_returnStmt hp) fun _ => ⟨rfl, rfl⟩) fun _ => ?_
    refine .ite (fun _ => behind (builds_importStmt hp) fun _ => ⟨rfl, rfl⟩) fun _ => ?_
    refine .ite (fun _ => behind (builds_assertStmt hp) fun _ => ⟨rfl, rfl⟩) fun _ => ?_
    exact builds_plainStmt h
termination_by ts.size * 8 + 5

theorem builds_body (ts : Tokens) {lo hi : Nat} (h : Stream w env.source lo hi ts) :
    Reads w env lo hi env.Stmt (body ts) := by
  unfold body
  refine (quiet_takeKind? h (.group .brace)).andThen fun found hfound => ?_
  cases found with
  | some group =>
    obtain ⟨group, rest, lt⟩ := group
    obtain ⟨hgroup, hkind⟩ := hfound _ rfl
    refine (builds_block group.span true group.inner hgroup.span (hgroup.inner hkind)).bind fun n hn => .pure rfl ?_
    exact ⟨hn.1 ▸ hgroup.passed, hn.2.1, hgroup.group hn.2.2⟩
  | none =>
    refine (Builds.inBlock _ (builds_statement ts h)).bind fun n hn => builds_parsed hn.toPassed hn.moves ?_
    exact builds_node hn.toIn (List.forall_mem_singleton.mpr (.refl _)) rfl (.refl _)
      (.block (List.forall_mem_singleton.mpr hn.form) rfl)
termination_by ts.size * 8 + 6

theorem builds_block (span : Span) (ownScope : Bool) (ts : Tokens) (hspan : span.In env.source)
    (h : Stream w env.source span.start span.stop ts) :
    Builds w env [] (block span ownScope ts) (fun n => [n]) fun n => n.span = span ∧ env.Stmt n ∧ ts.Whole := by
  unfold block
  refine (Builds.inBlock _ (builds_statements ts h)).bind fun stmts hstmts => ?_
  exact (builds_node hspan (holds_of_stands hstmts.2) rfl (.refl _) (.block (fun m hm => (hstmts.2 m hm).form) rfl)).imp
    fun _ hn => ⟨hn.1, hn.2, hstmts.1⟩
termination_by ts.size * 8 + 7

theorem builds_ifStmt {keyword : Span} (ts : Tokens) {lo hi : Nat} (hk : Passed w env.source lo hi keyword ts) :
    Reads w env lo hi env.Stmt (ifStmt keyword ts) := by
  unfold ifStmt
  refine (builds_condition hk.after).bind fun cond hcond => ?_
  obtain ⟨cond, rest, le⟩ := cond
  have hle : rest.size ≤ ts.size := le
  refine .read (builds_body rest hcond.after) fun first hfirst => ?_
  obtain ⟨first, rest', le'⟩ := first
  have hfirst' := hfirst.toPassed.beyond hcond.toBetween
  refine .read (builds_elseTail rest' hfirst') fun tail htail => ?_
  have hm := hcond.moves.trans (hfirst.moves.trans htail.1.moves)
  have hall : ∀ b ∈ (cond, first) :: tail.branches, env.Expr b.1 ∧ env.Stmt b.2 :=
    List.forall_mem_cons.mpr ⟨⟨hcond.form, hfirst.form⟩, fun b hb =>
      ⟨(htail.1.branches b hb).1.form, (htail.1.branches b hb).2.form⟩⟩
  refine builds_behind hk htail.1.toPassed hm rfl (.refl _) ?_ (.ifChain (fun b hb => (hall b hb).1)
    (fun b hb => (hall b hb).2) (fun m hm => (htail.1.otherwise m hm).form) rfl)
  refine List.forall_mem_cons.mpr ⟨⟨hcond.lower, ?_⟩, List.forall_mem_cons.mpr ⟨⟨hfirst'.lower, htail.2⟩, fun m hm => ?_⟩⟩
  · exact Nat.le_trans hfirst.lower_stop htail.2
  · exact ⟨(htail.1.nodes m hm).lower, (htail.1.nodes m hm).upper⟩
termination_by ts.size * 8 + 7

theorem builds_elseTail {last : Span} (ts : Tokens) {lo hi : Nat} (h : Passed w env.source lo hi last ts) :
    Builds w env [] (elseTail last ts) Chain.nodes fun c => c.Stands w env lo hi ∧ last.stop ≤ c.last.stop := by
  unfold elseTail
  refine (quiet_takeWord? h.after "else").andThen fun found hfound => ?_
  cases found with
  | none => exact .pure rfl ⟨⟨h, .refl ts, nofun, nofun⟩, Nat.le_refl _⟩
  | some word =>
    obtain ⟨word, rest, lt⟩ := word
    have hm : Moves ts rest := hfound _ rfl
    refine (quiet_takeWord? (hm.stream h.after) "if").andThen fun found hfound => ?_
    cases found with
    | some word =>
      obtain ⟨word, rest', lt'⟩ := word
      have hm' : Moves ts rest' := hm.trans (hfound _ rfl)
      refine (builds_condition (hm'.stream h.after)).bind fun cond hcond => ?_
      obtain ⟨cond, rest₂, le₂⟩ := cond
      have hcond' := hcond.toPassed.beyond h.toBetween
      refine .read (builds_body rest₂ hcond.after) fun n hn => ?_
      obtain ⟨n, rest₃, le₃⟩ := n
      have hn' := hn.toPassed.beyond hcond'.toBetween
      refine .read (builds_elseTail rest₃ hn') fun tail htail => .pure rfl ?_
      obtain ⟨htail, hstop⟩ := htail
      have hcondStop : cond.span.stop ≤ tail.last.stop := Nat.le_trans hn.lower_stop hstop
      refine ⟨⟨htail.toPassed, hm'.trans (hcond.moves.trans (hn.moves.trans htail.moves)), ?_, htail.otherwise⟩, ?_⟩
      · exact List.forall_mem_cons.mpr ⟨⟨⟨⟨hcond'.toIn, hcond'.lower, hcondStop⟩, hcond.form⟩,
          ⟨⟨hn'.toIn, hn'.lower, hstop⟩, hn.form⟩⟩, htail.branches⟩
      · exact Nat.le_trans hcond.lower_stop hcondStop
    | none =>
      refine (builds_body rest (hm.stream h.after)).bind fun n hn => .pure rfl ?_
      have hn' := hn.toPassed.beyond h.toBetween
      refine ⟨⟨hn', hm.trans hn.moves, nofun, fun _ he => ?_⟩, hn.lower_stop⟩
      cases he
      exact ⟨⟨hn'.toIn, hn'.lower, Nat.le_refl _⟩, hn.form⟩
termination_by ts.size * 8 + 1

theorem builds_forStmt {keyword : Span} (ts : Tokens) {lo hi : Nat} (hk : Passed w env.source lo hi keyword ts) :
    Reads w env lo hi env.Stmt (forStmt keyword ts) := by
  unfold forStmt
  refine (quiet_expect hk.after (.group .paren) _).andThen fun head hhead => ?_
  obtain ⟨head, rest, lt⟩ := head
  obtain ⟨hhead, hkind⟩ := hhead
  have hinner := hhead.inner hkind
  have hrest : Stream w env.source head.span.stop hi rest := hhead.passed.after
  -- What stands in the head is behind the keyword and before the body.
  have inHead : ∀ {P : Node → Prop} {m n : Node}, env.Stands head.span.start head.span.stop P m →
      n.span.Between env.source head.span.stop hi → keyword.stop ≤ m.span.start ∧ m.span.stop ≤ n.span.stop :=
    fun hm hn => ⟨Nat.le_trans hhead.passed.lower hm.span.lower, Nat.le_trans hm.span.upper hn.lower_stop⟩
  refine (quiet_eachHead? hinner).andThen fun found heach => ?_
  cases found with
  | some each =>
    have heach := heach _ rfl
    refine (quiet_bindable heach.item).andThen fun item hfree => ?_
    refine (builds_wholeExpr each.subject heach.start (heach.moves.stream hinner)).bind fun subject hsubject => ?_
    have hm := hhead.group (heach.moves.whole hsubject.2)
    refine .read (Builds.inBlock _ (builds_body rest hrest)) fun n hn => .assoc ?_
    have hp := (hn.toPassed.beyond hhead.passed.toBetween).cover hk.toBetween
    refine builds_parsed hp (hm.trans hn.moves) ?_
    refine builds_numbered hp.toIn (List.forall_mem_cons.mpr ⟨?_, List.forall_mem_singleton.mpr (.right _ _)⟩) (fun _ _ => rfl)
      (fun _ _ => hfree) (fun _ => .refl _) fun _ => .forEach hsubject.1.form hn.form rfl
    obtain ⟨hlower, hupper⟩ := inHead hsubject.1 hn.toBetween
    exact .cover (Nat.le_trans hk.le hlower) hupper
  | none =>
    refine Builds.inBlock _ ((builds_forHead head.inner hinner).bind fun parts hparts => ?_)
    obtain ⟨init, cond, step⟩ := parts
    obtain ⟨hw, hinit, hcond, hstep⟩ := hparts
    have hm := hhead.group hw
    refine .read (builds_body rest hrest) fun n hn => ?_
    refine builds_behind hk (hn.toPassed.beyond hhead.passed.toBetween) (hm.trans hn.moves) rfl
      (perm_children_loop _ _ _ _ _ _) ?_ (.loop (fun m hm => (hinit m hm).form) (fun m hm => (hcond m hm).form)
        (fun m hm => (hstep m hm).form) hn.form rfl)
    refine List.forall_mem_append.mpr ⟨List.forall_mem_append.mpr ⟨List.forall_mem_append.mpr ⟨?_, ?_⟩, ?_⟩, ?_⟩
    · exact fun m hm => inHead (hinit m (Option.mem_toList.mp hm)) hn.toBetween
    · exact fun m hm => inHead (hcond m (Option.mem_toList.mp hm)) hn.toBetween
    · exact fun m hm => inHead (hstep m (Option.mem_toList.mp hm)) hn.toBetween
    · exact List.forall_mem_singleton.mpr ⟨Nat.le_trans hhead.passed.lower_stop hn.lower, Nat.le_refl _⟩
termination_by ts.size * 8 + 1

theorem builds_forHead (ts : Tokens) {lo hi : Nat} (h : Stream w env.source lo hi ts) :
    Builds w env [] (forHead ts) (fun parts => parts.1.toList ++ parts.2.1.toList ++ parts.2.2.toList) fun parts =>
      ts.Whole ∧ (∀ m ∈ parts.1, env.Stands lo hi env.Stmt m) ∧ (∀ m ∈ parts.2.1, env.Stands lo hi env.Expr m) ∧
        ∀ m ∈ parts.2.2, env.Stands lo hi env.Expr m := by
  have semicolon : ∀ {ts : Tokens}, Stream w env.source lo hi ts →
      Quiet env (expect ts .semicolon "';' in for head") fun t => Moves ts t.rest :=
    fun h => (quiet_expect h .semicolon _).imp fun _ ht => ht.1.plain ht.2 rfl
  unfold forHead
  refine (builds_forInit ts h).bind fun init hinit => (semicolon (hinit.1.stream h)).andThen fun sign hsign => ?_
  have hm := hinit.1.trans hsign
  refine .read (builds_forCondition (hm.stream h)) fun cond hcond => ?_
  have hm' := hm.trans hcond.1
  refine (semicolon (hm'.stream h)).andThen fun sign' hsign' => ?_
  have hm'' := hm'.trans hsign'
  exact .read (builds_forStep (hm''.stream h)) fun step hstep => .pure rfl ⟨hm''.whole hstep.1, hinit.2, hcond.2, hstep.2⟩
termination_by ts.size * 8 + 7

theorem builds_forInit (ts : Tokens) {lo hi : Nat} (h : Stream w env.source lo hi ts) :
    Builds w env [] (forInit ts) (fun p => p.value.toList) fun p =>
      Moves ts p.rest ∧ ∀ m ∈ p.value, env.Stands lo hi env.Stmt m := by
  unfold forInit
  refine (quiet_peek h).andThen fun next _ => .ite (fun _ => .pure rfl ⟨.refl ts, nofun⟩) fun _ => ?_
  exact (builds_statement ts h).bind fun n hn => .pure rfl ⟨hn.moves, fun _ he => by cases he; exact hn.stands⟩
termination_by ts.size * 8 + 6

theorem builds_whileStmt {keyword : Span} (kind : LoopKind) (ts : Tokens) {lo hi : Nat}
    (hk : Passed w env.source lo hi keyword ts) : Reads w env lo hi env.Stmt (whileStmt keyword kind ts) := by
  unfold whileStmt
  refine (builds_condition hk.after).bind fun cond hcond => ?_
  obtain ⟨cond, rest, le⟩ := cond
  have hle : rest.size ≤ ts.size := le
  refine .read (builds_body rest hcond.after) fun n hn => ?_
  refine builds_behind hk (hn.toPassed.beyond hcond.toBetween) (hcond.moves.trans hn.moves) rfl
    (perm_children_loop _ _ none (some cond) none _) ?_ (.loop nofun (fun _ he => by cases he; exact hcond.form) nofun hn.form rfl)
  exact List.forall_mem_cons.mpr ⟨⟨hcond.lower, hn.lower_stop⟩, List.forall_mem_singleton.mpr
    ⟨Nat.le_trans hcond.lower_stop hn.lower, Nat.le_refl _⟩⟩
termination_by ts.size * 8 + 7

theorem builds_doStmt {keyword : Span} (ts : Tokens) {lo hi : Nat} (hk : Passed w env.source lo hi keyword ts) :
    Reads w env lo hi env.Stmt (doStmt keyword ts) := by
  unfold doStmt
  refine (builds_body ts hk.after).bind fun n hn => (quiet_expectName hn.after _).andThen fun word hword => ?_
  refine (quiet_tailLoop hword.toIn).andThen fun kind _ => .read (builds_condition hword.after) fun cond hcond => ?_
  have hcond' := hcond.toPassed.beyond hword.toBetween
  refine builds_behind hk (hcond'.beyond hn.toBetween) (hn.moves.trans (hword.moves.trans hcond.moves)) rfl
    ((List.Perm.swap _ _ _).trans (perm_children_loop _ _ none (some cond.node) none _)) ?_
    (.loop nofun (fun _ he => by cases he; exact hcond.form) nofun hn.form rfl)
  exact List.forall_mem_cons.mpr ⟨⟨hn.lower, hcond'.lower_stop⟩, List.forall_mem_singleton.mpr
    ⟨Nat.le_trans hn.lower_stop hcond'.lower, Nat.le_refl _⟩⟩
termination_by ts.size * 8 + 7

theorem builds_functionStmt {keyword : Span} (ts : Tokens) {lo hi : Nat} (hk : Passed w env.source lo hi keyword ts) :
    Reads w env lo hi env.Stmt (functionStmt keyword ts) := by
  unfold functionStmt
  refine (quiet_expectName hk.after _).andThen fun nameToken hname => ?_
  obtain ⟨nameToken, rest, le⟩ := nameToken
  have hname' : Passed w env.source lo hi nameToken.span rest := hname.toPassed.beyond hk.toBetween
  refine (quiet_bindable hname'.toIn).andThen fun name hfree => ?_
  refine (quiet_expect hname'.after (.group .paren) _).andThen fun head hhead => ?_
  obtain ⟨head, rest', lt⟩ := head
  obtain ⟨hhead, hkind⟩ := hhead
  refine (quiet_parameters [] head.inner (hhead.inner hkind) ⟨List.nodup_nil, nofun⟩).andThen
    fun params hparams => ?_
  have hm : Moves ts rest' := hname.moves.trans (hhead.group hparams.2)
  have hrest : Stream w env.source head.span.stop hi rest' := hhead.passed.after
  refine (quiet_expect hrest (.group .brace) _).andThen fun group hgroup => ?_
  obtain ⟨group, rest'', lt'⟩ := group
  obtain ⟨hgroup, hkind'⟩ := hgroup
  refine (quiet_declare hname'.start _ _).andThen fun _ _ => ?_
  have hbehind := (hgroup.passed.beyond hhead.passed.toBetween).beyond hname.toBetween
  refine builds_function hfree hparams.1 (hbehind.cover hk.toBetween) _ (Builds.inBlock _ ?_)
  refine (builds_block group.span false group.inner hgroup.span (hgroup.inner hkind')).imp fun _ hn =>
    ⟨hn.1 ▸ .right _ _, hn.2.1, ?_⟩
  exact hm.trans (hgroup.group hn.2.2)
termination_by ts.size * 8 + 1

end

/-! ## Programs and paths -/

/-- The source is a stream that has been read to its end if the whole of it has. -/
theorem stream_source (source : List Char) :
    Stream (Tokens.ofText source).Whole source 0 (Text.byteLength source) (.ofText source) :=
  ⟨Nat.zero_le _, Tokens.placed_ofText source, Tokens.upTo_ofText source, .ofText source, id⟩

theorem builds_program : Builds (Tokens.ofText env.source).Whole env [] program (fun n => [n]) fun n =>
    env.Stmt n ∧ (Tokens.ofText env.source).Whole := by
  refine Quiet.ask.andThen fun e he => ?_
  subst he
  have hspan : Span.In e.source ⟨0, Text.byteLength e.source⟩ :=
    ⟨Nat.zero_le _, ⟨[], e.source, rfl, rfl⟩, ⟨e.source, [], by simp, rfl⟩⟩
  refine (builds_statements _ (stream_source _)).bind fun stmts hstmts => ?_
  exact (builds_node hspan (fun m hm => ⟨Nat.zero_le _, (hstmts.2 m hm).span.upper⟩) rfl (.refl _)
    (.block (fun m hm => (hstmts.2 m hm).form) rfl)).imp fun _ hn => ⟨hn.2, hstmts.1⟩

/-- The expressions in a path that can be assigned to, with what its text has to do with it. -/
theorem builds_assignablePath : Builds (Tokens.ofText env.source).Whole env [] assignablePath Path.nodes fun p =>
    p.Quotes env.source ∧ (∀ n ∈ p.nodes, env.Expr n) ∧ (Tokens.ofText env.source).Whole := by
  refine Quiet.ask.andThen fun e he => ?_
  subst he
  refine (builds_operand _ (stream_source _)).bind fun n hn => ?_
  obtain ⟨n, rest, le⟩ := n
  refine (quiet_expectEnd hn.after).andThen fun _ hw => ?_
  have hwhole := hn.moves.whole hw
  refine .unfold hn.form fun _ hsound => ?_
  split
  next path site hkind =>
    refine .ite (fun _ => .pure ?_ ⟨(hsound hwhole).of_property hkind, (hn.form.of_property hkind).1, hwhole⟩)
      fun _ => .fail (by simp) hn.start
    simp only [Node.children, hkind, List.append_nil]
  next => exact .fail (by simp) hn.start

variable {x : CompileM α} {made : α → List Node} {Q : α → Prop} {site function : Nat}

theorem Builds.of_run (h : Builds w env [] x made Q) {c : Compiled α} (hc : run x env site function = .ok c) :
    ∃ st, Held w env (.start site function) st (made c.tree) ∧ Q c.tree ∧ c.functions = st.functions.reverse ∧
      c.nextSite = st.nextSite := by
  unfold run at hc
  cases hr : x env (.start site function) with
  | error e => rw [hr] at hc; cases hc
  | ok r =>
    obtain ⟨a, st⟩ := r
    rw [hr] at hc
    cases hc
    have hx := (h _ _ [] (.nil (.refl _))).of_ok hr
    rw [List.append_nil] at hx
    exact ⟨st, hx.1, hx.2, rfl, rfl⟩

end Compile

variable {env : Compile.Env} {site function : Nat}

theorem run_of_compileProgram {c : Compiled Node} (h : compileProgram env site function = .ok c) :
    Compile.run Compile.program env site function = .ok c := by
  unfold compileProgram at h
  cases hr : Compile.run Compile.program env site function with
  | error e => rw [hr] at h; cases h
  | ok c' => rwa [hr] at h

/-- The tree of a compiled program, with the functions it declares. -/
structure Compiled.Program (site : SiteId) (c : Compiled Node) : Prop where
  le : site ≤ c.nextSite
  grown : Grown site c.nextSite [c.tree]
  /-- Names outside of functions have no registers. -/
  bound : ∀ m : Node, m.Within c.tree → ∀ b ∈ m.binds?, Compile.Bound none b.1 b.2
  functions : ∀ f ∈ c.functions, ∃ m : Node, m.Occurs c.tree ∧ m.kind = .functionDecl f

theorem program_of_compileProgram {c : Compiled Node} (h : compileProgram env site function = .ok c) :
    c.Program site := by
  obtain ⟨st, hheld, ⟨-, hw⟩, hfunctions, hnext⟩ := Compile.builds_program.of_run (run_of_compileProgram h)
  have houtside : st.layouts.head? = none := by rw [hheld.layouts.eq_nil]; rfl
  refine ⟨hnext ▸ hheld.le, hnext ▸ hheld.grown.whole hw fun _ => Path.Quotes.spelled,
    houtside ▸ hheld.bound _ (List.mem_singleton_self _), ?_⟩
  intro f hf
  rw [hfunctions] at hf
  rcases hheld.functions f (List.mem_reverse.mp hf) with hf | ⟨m, ⟨t, ht, ho⟩, hkind⟩
  · cases hf
  · cases List.mem_singleton.mp ht
    exact ⟨m, ho, hkind⟩

theorem node_of_compileProgram {c : Compiled Node} (h : compileProgram env site function = .ok c) {n : Node}
    (hn : n.Occurs c.tree) : env.Lies n ∧ env.Sound n := by
  obtain ⟨st, hheld, ⟨-, hw⟩, -⟩ := Compile.builds_program.of_run (run_of_compileProgram h)
  have hamong : Node.Among [c.tree] n := ⟨c.tree, List.mem_singleton_self _, hn⟩
  exact ⟨hheld.lies n hamong, hheld.grown.sound hw n hamong⟩

/-- A compiled program is a statement, and so are the bodies of its functions. -/
theorem statement_of_compileProgram {c : Compiled Node} (h : compileProgram env site function = .ok c) :
    IsStatement env.options.verifies c.tree ∧ ∀ fn ∈ c.functions, IsStatement env.options.verifies fn.body := by
  obtain ⟨st, -, ⟨htree, -⟩, -⟩ := Compile.builds_program.of_run (run_of_compileProgram h)
  refine ⟨htree, fun fn hfn => ?_⟩
  obtain ⟨m, hm, hk⟩ := (program_of_compileProgram h).functions fn hfn
  exact (htree.part hm).body_of_functionDecl hk

/-- A compiled path: its text spells it, and the expressions in it are trees of their own. -/
structure Compiled.Setter (site : SiteId) (c : Compiled Path) : Prop where
  le : site ≤ c.nextSite
  spelled : c.tree.Spelled
  grown : Grown site c.nextSite c.tree.nodes
  functions : c.functions = []

theorem setter_of_compilePath {c : Compiled Path} (h : compilePath env site function = .ok c) : c.Setter site := by
  obtain ⟨st, hheld, ⟨hquotes, hnodes, hw⟩, hfunctions, hnext⟩ := Compile.builds_assignablePath.of_run h
  refine ⟨hnext ▸ hheld.le, hquotes.spelled, hnext ▸ hheld.grown.whole hw fun _ => Path.Quotes.spelled, ?_⟩
  rw [hfunctions, List.reverse_eq_nil_iff]
  refine List.eq_nil_iff_forall_not_mem.mpr fun f hf => ?_
  rcases hheld.functions f hf with hf | ⟨m, ⟨t, ht, ho⟩, hkind⟩
  · cases hf
  · exact ((hnodes t ht).part ho).not_functionDecl hkind

end PathScript
