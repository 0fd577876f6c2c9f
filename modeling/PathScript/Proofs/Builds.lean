import PathScript.Proofs.Grammar
import PathScript.Proofs.Precedence
import PathScript.Proofs.Settles

/-! # Making nodes

Compilation holds trees that it has made, and makes nodes from them. A step is
described by the trees that it takes and those that it leaves in their place;
whatever else is held is not touched. So nothing has to be said of states.

Only a text that is read to its end spells its paths: in another one an empty
name may have been taken, which no text spells. So the soundness of nodes is
held under that condition. -/

namespace PathScript.Compile

variable {w : Prop} {env : Env} {st st' st'' : State} {α β : Type} {ns ns' ds parts : List Node} {n : Node} {typed : Bool}

/-! ## Trees that are held -/

/-- A node that stands in the source, around those right below it, with its line if lines are recorded. -/
structure Env.Lies (env : Env) (n : Node) : Prop where
  span : n.span.In env.source
  around : ∀ m ∈ n.children, n.span.Holds m.span
  line : n.info.line = env.lineStarts?.map (Source.lineAmong · n.span.start)

/-- A node that is sound, with paths that the source spells. -/
abbrev Env.Sound (env : Env) (n : Node) : Prop := n.SoundIn (Path.Quotes env.source)

/-- Trees that were made from one state to another, for the function around them. They declare all functions that were
completed on the way. -/
structure Held (w : Prop) (env : Env) (st st' : State) (ns : List Node) : Prop where
  le : st.nextSite ≤ st'.nextSite
  layouts : Grow st.layouts st'.layouts
  grown : GrownIf w (Path.Quotes env.source) st.nextSite st'.nextSite ns
  lies : ∀ m, Node.Among ns m → env.Lies m
  bound : ∀ n ∈ ns, ∀ m : Node, m.Within n → ∀ b ∈ m.binds?, Bound st'.layouts.head? b.1 b.2
  functions : ∀ f ∈ st'.functions, f ∈ st.functions ∨ ∃ m, Node.Among ns m ∧ m.kind = .functionDecl f

/-- A number was given to a site. -/
structure State.Numbers (st : State) (s : SiteId) (st' : State) : Prop where
  site : s = st.nextSite
  nextSite : st'.nextSite = st.nextSite + 1
  functions : st'.functions = st.functions
  layouts : Grow st.layouts st'.layouts

theorem settles_newSite : Settles env st newSite st.Numbers := ⟨rfl, rfl, rfl, .refl _⟩

theorem State.Keeps.numbers {s : SiteId} (h : st.Keeps st') (h' : st'.Numbers s st'') : st.Numbers s st'' :=
  ⟨h'.site.trans h.nextSite, by rw [h'.nextSite, h.nextSite], h'.functions.trans h.functions, h.layouts.trans h'.layouts⟩

namespace Held

theorem nil (h : st.Keeps st') : Held w env st st' [] :=
  ⟨Nat.le_of_eq h.nextSite.symm, h.layouts, .nil, fun _ ⟨_, hn, _⟩ => (List.not_mem_nil hn).elim, nofun,
    fun _ hf => .inl (h.functions ▸ hf)⟩

theorem append (h : Held w env st st' ns) (h' : Held w env st' st'' ns') : Held w env st st'' (ns ++ ns') where
  le := Nat.le_trans h.le h'.le
  layouts := h.layouts.trans h'.layouts
  grown := h.grown.append h'.grown h.le h'.le
  lies m hm := (Node.Among.append_iff.mp hm).elim (h.lies m) (h'.lies m)
  bound := List.forall_mem_append.mpr ⟨fun n hn m hm b hb => (h.bound n hn m hm b hb).mono h'.layouts, h'.bound⟩
  functions f hf := by
    rcases h'.functions f hf with hf | ⟨m, hm, hkind⟩
    · exact (h.functions f hf).imp_right fun ⟨m, hm, hkind⟩ => ⟨m, Node.Among.append_iff.mpr (.inl hm), hkind⟩
    · exact .inr ⟨m, Node.Among.append_iff.mpr (.inr hm), hkind⟩

theorem keeps (h : Held w env st st' ns) (hk : st'.Keeps st'') : Held w env st st'' ns := by
  have := h.append (.nil hk)
  rwa [List.append_nil] at this

theorem subset (h : Held w env st st' ns) (hs : ns' ⊆ ns)
    (hf : ∀ f m, Node.Among ns m → m.kind = .functionDecl f → Node.Among ns' m) : Held w env st st' ns' where
  le := h.le
  layouts := h.layouts
  grown := h.grown.subset hs
  lies m hm := h.lies m (hm.mono hs)
  bound n hn := h.bound n (hs hn)
  functions f hmem := (h.functions f hmem).imp_right fun ⟨m, hm, hkind⟩ => ⟨m, hf f m hm hkind, hkind⟩

theorem perm (h : Held w env st st' ns) (hp : ns.Perm ns') : Held w env st st' ns' :=
  h.subset hp.symm.subset fun _ _ hm _ => hm.mono hp.subset

/-- Expressions declare no functions. -/
theorem drop (h : Held w env st st' (ds ++ ns)) (hd : ∀ n ∈ ds, IsExpression typed n) : Held w env st st' ns := by
  refine h.subset (List.subset_append_right _ _) fun f m hm hkind => ?_
  rcases Node.Among.append_iff.mp hm with ⟨n, hn, ho⟩ | hm
  · exact absurd hkind ((hd n hn).part ho).not_functionDecl
  · exact hm

theorem unfold (h : Held w env st st' (n :: ns)) (he : IsExpression typed n) : Held w env st st' (n.children ++ ns) where
  le := h.le
  layouts := h.layouts
  grown := h.grown.restrict fun _ => .of_append
  lies m hm := h.lies m hm.of_append
  bound := by
    refine List.forall_mem_append.mpr ⟨fun c hc m hm => ?_, fun c hc => h.bound c (List.mem_cons_of_mem n hc)⟩
    exact h.bound n List.mem_cons_self m (.under (he.own_eq ▸ hc) hm)
  functions f hf := by
    refine (h.functions f hf).imp_right fun ⟨m, hm, hkind⟩ => ⟨m, ?_, hkind⟩
    exact hm.cons_cases.resolve_left fun heq => he.not_functionDecl (heq ▸ hkind)

/-- A node from trees that are held, in a state that may have numbered it. -/
theorem made (h : Held w env st st' (n.children ++ ns)) (hle : st'.nextSite ≤ st''.nextSite)
    (hlayouts : Grow st'.layouts st''.layouts) (hfunctions : st''.functions = st'.functions) (hlies : env.Lies n)
    (hsound : w → env.Sound n) (hbinds : ∀ b ∈ n.binds?, Bound st''.layouts.head? b.1 b.2)
    (hsite : ∀ s, n.site? = some s → st.nextSite ≤ s ∧ st'.nextSite ≤ s ∧ s < st''.nextSite) :
    Held w env st st'' (n :: ns) where
  le := Nat.le_trans h.le hle
  layouts := h.layouts.trans hlayouts
  grown := h.grown.node hsound hsite hle
  lies m hm := hm.cons_cases.elim (· ▸ hlies) (h.lies m)
  bound := by
    refine List.forall_mem_cons.mpr ⟨fun m hm => ?_, fun c hc m hm b hb => ?_⟩
    · cases hm with
      | here => exact hbinds
      | under child hm =>
        have hc := List.mem_append_left ns (Node.own_subset_children child)
        exact fun b hb => (h.bound _ hc m hm b hb).mono hlayouts
    · exact (h.bound c (List.mem_append_right _ hc) m hm b hb).mono hlayouts
  functions f hf := by
    exact (h.functions f (hfunctions ▸ hf)).imp_right fun ⟨m, hm, hkind⟩ => ⟨m, hm.of_append, hkind⟩

theorem plain (h : Held w env st st' (n.children ++ ns)) (hk : st'.Keeps st'') (hlies : env.Lies n) (hsound : w → env.Sound n)
    (hbinds : ∀ b ∈ n.binds?, Bound st''.layouts.head? b.1 b.2) (hsite : n.site? = none) : Held w env st st'' (n :: ns) :=
  h.made (Nat.le_of_eq hk.nextSite.symm) hk.layouts hk.functions hlies hsound hbinds fun s hs => by rw [hsite] at hs; cases hs

theorem binds?_of_site? {s : SiteId} (h : n.site? = some s) : n.binds? = none := by
  unfold Node.binds?
  split
  next hk => simp only [Node.site?, hk] at h; cases h
  next => rfl

theorem numbered {s : SiteId} (h : Held w env st st' (n.children ++ ns)) (hs : st'.Numbers s st'') (hlies : env.Lies n)
    (hsound : w → env.Sound n) (hsite : n.site? = some s) : Held w env st st'' (n :: ns) := by
  refine h.made (by rw [hs.nextSite]; exact Nat.le_succ _) hs.layouts hs.functions hlies hsound ?_ fun s' hs' => ?_
  · rw [binds?_of_site? hsite]
    exact nofun
  · cases hsite.symm.trans hs'
    rw [hs.nextSite, hs.site]
    exact ⟨h.le, Nat.le_refl _, Nat.lt_succ_self _⟩

end Held

/-! ## Steps that make trees -/

/-- A step that takes trees and leaves others in their place. -/
def Builds (w : Prop) (env : Env) (parts : List Node) (x : CompileM α) (made : α → List Node) (Q : α → Prop) : Prop :=
  ∀ st₀ st others, Held w env st₀ st (parts ++ others) →
    Settles env st x fun a st' => Held w env st₀ st' (made a ++ others) ∧ Q a

namespace Builds

variable {x y : CompileM α} {f : α → CompileM β} {made mid : α → List Node} {made' : β → List Node} {P Q : α → Prop}
  {R : β → Prop}

theorem pure {a : α} (hmade : made a = parts) (h : Q a) : Builds w env parts (pure a) made Q :=
  fun _ _ _ hheld => .pure ⟨hmade ▸ hheld, h⟩

theorem bind (hx : Builds w env parts x mid P) (hf : ∀ a, P a → Builds w env (mid a) (f a) made' R) :
    Builds w env parts (x >>= f) made' R :=
  fun _ _ _ h => (hx _ _ _ h).bind fun a _ ha => hf a ha.2 _ _ _ ha.1

theorem assoc {γ : Type} {g : β → CompileM γ} {made : γ → List Node} {Q : γ → Prop}
    (h : Builds w env parts ((x >>= f) >>= g) made Q) : Builds w env parts (x >>= fun a => f a >>= g) made Q := by
  rwa [bind_assoc] at h

theorem imp (hx : Builds w env parts x made P) (h : ∀ a, P a → Q a) : Builds w env parts x made Q :=
  fun _ _ _ hheld => (hx _ _ _ hheld).imp fun a _ ha => ⟨ha.1, h a ha.2⟩

theorem fail {fault : CompileFault} {offset : Nat} (hf : fault ≠ .outsideSource) (hp : IsPlace env.source offset) :
    Builds w env parts (CompileM.fail fault offset) made Q := fun _ _ _ _ => .fail hf hp

theorem ite {c : Prop} [Decidable c] (hx : c → Builds w env parts x made Q) (hy : ¬ c → Builds w env parts y made Q) :
    Builds w env parts (if c then x else y) made Q :=
  fun _ _ _ h => .ite (fun hc => hx hc _ _ _ h) fun hc => hy hc _ _ _ h

theorem perm (hp : parts.Perm ns) (h : Builds w env ns x made Q) : Builds w env parts x made Q :=
  fun _ _ _ hheld => h _ _ _ (hheld.perm (hp.append_right _))

theorem frame (more : List Node) (h : Builds w env parts x made Q) :
    Builds w env (parts ++ more) x (fun a => made a ++ more) Q := by
  intro st₀ st others hheld
  rw [List.append_assoc] at hheld
  refine (h _ _ _ hheld).imp fun a _ ha => ⟨?_, ha.2⟩
  rw [List.append_assoc]
  exact ha.1

theorem read (hx : Builds w env [] x mid P) (hf : ∀ a, P a → Builds w env (parts ++ mid a) (f a) made' R) :
    Builds w env parts (x >>= f) made' R :=
  (hx.frame parts).bind fun a ha => (hf a ha).perm List.perm_append_comm

theorem drop {d : List Node} (hd : ∀ n ∈ d, IsExpression typed n) (hp : parts.Perm (d ++ ns))
    (h : Builds w env ns x made Q) : Builds w env parts x made Q := by
  intro st₀ st others hheld
  have hheld := hheld.perm (hp.append_right others)
  rw [List.append_assoc] at hheld
  exact h _ _ _ (hheld.drop hd)

/-- The parts of an expression in its place, of which everything is known. -/
theorem unfold (he : IsExpression typed n)
    (h : env.Lies n → (w → env.Sound n) → Builds w env (n.children ++ parts) x made Q) :
    Builds w env (n :: parts) x made Q := by
  intro st₀ st others hheld
  have hn : Node.Among (n :: parts ++ others) n := ⟨n, List.mem_cons_self, .here n⟩
  refine h (hheld.lies n hn) (fun hw => hheld.grown.sound hw n hn) _ _ _ ?_
  rw [List.append_assoc]
  exact hheld.unfold he

theorem inBlock (names : Dict Declared) (h : Builds w env parts x made Q) :
    Builds w env parts (Compile.inBlock names x) made Q := by
  intro st₀ st others hheld
  refine (Quiet.modify (g := fun st => { st with blocks := names :: st.blocks }) (fun _ => ⟨rfl, rfl, .refl _⟩) st).bind
    fun _ st₁ h₁ => (h _ _ _ (hheld.keeps h₁.1)).bind fun a st₂ ha => ?_
  exact (Quiet.modify (g := fun st => { st with blocks := st.blocks.tail }) (fun _ => ⟨rfl, rfl, .refl _⟩) st₂).bind
    fun _ st₃ h₃ => .pure ⟨ha.1.keeps h₃.1, ha.2⟩

end Builds

theorem Quiet.andThen {x : CompileM α} {f : α → CompileM β} {P : α → Prop} {made : β → List Node} {R : β → Prop}
    (hx : Quiet env x P) (hf : ∀ a, P a → Builds w env parts (f a) made R) : Builds w env parts (x >>= f) made R :=
  fun _ st _ h => (hx st).bind fun a _ ha => hf a ha.2 _ _ _ (h.keeps ha.1)

/-! ## Nodes -/

abbrev Env.Expr (env : Env) : Node → Prop := IsExpression env.options.verifies

/-- A node of some form that stands in a part of the source. -/
structure Env.Stands (env : Env) (lo hi : Nat) (P : Node → Prop) (n : Node) : Prop where
  span : n.span.Between env.source lo hi
  form : P n

theorem Env.Stands.mono {lo hi lo' hi' : Nat} {P : Node → Prop} (h : env.Stands lo hi P n) (hlo : lo' ≤ lo) (hhi : hi ≤ hi') :
    env.Stands lo' hi' P n :=
  ⟨h.span.mono hlo hhi, h.form⟩

/-- Nodes that have no site, bind no name, and are sound whatever they are made of. -/
def NodeKind.isSimple : NodeKind → Bool
  | .literal _ | .property _ _ | .assignment .. | .increment .. | .regexMatch _ _ (some _) | .forEach .. | .newObject ..
  | .collection .. | .functionDecl _ => false
  | _ => true

section Nodes

variable {lo hi : Nat} {span : Span} {egress : Ty} {kind : NodeKind} {P : Node → Prop}

theorem Builds.stands {x : CompileM Node} (h : Builds w env parts x (fun n => [n]) fun n => n.span = span ∧ P n)
    (hspan : span.Between env.source lo hi) : Builds w env parts x (fun n => [n]) (env.Stands lo hi P) :=
  h.imp fun _ hn => ⟨hn.1 ▸ hspan, hn.2⟩

theorem Env.lies (hspan : span.In env.source) (hparts : parts.Perm (Node.children ⟨env.info span egress, kind⟩))
    (haround : ∀ m ∈ parts, span.Holds m.span) : env.Lies ⟨env.info span egress, kind⟩ :=
  ⟨hspan, fun m hm => haround m (hparts.mem_iff.mpr hm), rfl⟩

section

variable (hspan : span.In env.source) (haround : ∀ m ∈ parts, span.Holds m.span)
include hspan haround

theorem builds_sound (hsite : Node.site? ⟨env.info span egress, kind⟩ = none)
    (hbinds : Node.binds? ⟨env.info span egress, kind⟩ = none) (hsound : env.Sound ⟨env.info span egress, kind⟩)
    (hparts : parts.Perm (Node.children ⟨env.info span egress, kind⟩)) (hform : P ⟨env.info span egress, kind⟩) :
    Builds w env parts (node span egress kind) (fun n => [n]) fun n => n.span = span ∧ P n := by
  intro st₀ st others hheld
  refine (quiet_node span egress kind st).imp ?_
  rintro n st' ⟨hk, rfl⟩
  have hlies := env.lies hspan hparts haround
  refine ⟨.plain (hheld.perm (hparts.append_right _)) hk hlies (fun _ => hsound) ?_ hsite, rfl, hform⟩
  rw [hbinds]
  exact nofun

omit hspan haround in
theorem NodeKind.sound_of_isSimple (h : NodeKind.isSimple kind = true) (i : Info) :
    Node.site? ⟨i, kind⟩ = none ∧ Node.binds? ⟨i, kind⟩ = none ∧ env.Sound ⟨i, kind⟩ := by
  cases kind with
  | literal | property | assignment | increment | forEach | newObject | collection | functionDecl => cases h
  | regexMatch a p compiled =>
    cases compiled with
    | some r => cases h
    | none => exact ⟨rfl, rfl, trivial⟩
  | _ => exact ⟨rfl, rfl, trivial⟩

theorem builds_node (h : NodeKind.isSimple kind = true)
    (hparts : parts.Perm (Node.children ⟨env.info span egress, kind⟩)) (hform : P ⟨env.info span egress, kind⟩) :
    Builds w env parts (node span egress kind) (fun n => [n]) fun n => n.span = span ∧ P n := by
  obtain ⟨hsite, hbinds, hsound⟩ := NodeKind.sound_of_isSimple h (env.info span egress)
  exact builds_sound hspan haround hsite hbinds hsound hparts hform

theorem builds_numbered {kind : SiteId → NodeKind} (hsite : ∀ i s, Node.site? ⟨i, kind s⟩ = some s)
    (hsound : ∀ i s, env.Sound ⟨i, kind s⟩) (hparts : ∀ s, parts.Perm (Node.children ⟨env.info span egress, kind s⟩))
    (hform : ∀ s, P ⟨env.info span egress, kind s⟩) :
    Builds w env parts (newSite >>= fun s => node span egress (kind s)) (fun n => [n]) fun n => n.span = span ∧ P n := by
  intro st₀ st others hheld
  refine settles_newSite.bind fun s st₁ hs => (quiet_node span egress (kind s) st₁).imp ?_
  rintro n st₂ ⟨hk, rfl⟩
  have hmade := Held.numbered (hheld.perm ((hparts s).append_right _)) hs (env.lies hspan (hparts s) haround)
    (fun _ => hsound _ s) (hsite _ s)
  exact ⟨hmade.keeps hk, rfl, hform s⟩

end

theorem builds_literal {v : Value} (hspan : span.In env.source) (hv : v.isPlain = true) :
    Builds w env [] (literal v span) (fun n => [n]) fun n => n.span = span ∧ env.Expr n :=
  builds_sound hspan nofun rfl rfl hv (.refl _) (.literal rfl hv)

theorem holds_operands (l r : Node) : ∀ m ∈ [l, r], (l.span.cover r.span).Holds m.span :=
  List.forall_mem_cons.mpr ⟨.left _ _, List.forall_mem_singleton.mpr (.right _ _)⟩

end Nodes

theorem isPlain_of_number? {sign cs : List Char} {v : Value} (h : Literal.number? sign cs = some v) :
    v.isPlain = true := by
  unfold Literal.number? at h
  dsimp only at h
  repeat' split at h
  all_goals
    obtain ⟨x, -, rfl⟩ := Option.map_eq_some_iff.mp h
    rfl

theorem builds_numberNode {t : Token} {lo : Nat} (ht : t.lexeme.Placed env.source lo) (minus : Option Span)
    (hm : ∀ m ∈ minus, m.In env.source) : Builds w env [] (numberNode t minus) (fun n => [n]) fun n =>
      n.span = (minus.map fun m => m.cover t.span).getD t.span ∧ env.Expr n := by
  have hspan : ((minus.map fun m => m.cover t.span).getD t.span).In env.source := by
    cases minus with
    | none => exact ht.span
    | some m => exact (hm m rfl).cover ht.span
  refine Quiet.andThen (P := fun v => v.isPlain = true) (.ofExcept (fun v hv => ?_) fun _ he => Literal.proper_number ht he)
    fun v hv => builds_literal hspan hv
  unfold Literal.number at hv
  dsimp only at hv
  split at hv
  next hn => cases hv; exact isPlain_of_number? hn
  next => cases hv

theorem isPlain_of_negated? {v w : Value} (h : negated? v = some w) : w.isPlain = true := by
  cases v with
  | int n =>
    obtain ⟨m, -, rfl⟩ := Option.map_eq_some_iff.mp h
    rfl
  | float x => cases h; rfl
  | _ => cases h

theorem builds_negation {minus : Span} (hspan : (minus.cover n.span).In env.source) (hn : env.Expr n) :
    Builds w env [n] (negation minus n) (fun n => [n]) fun m => m.span = minus.cover n.span ∧ env.Expr m := by
  unfold negation
  dsimp only
  cases hneg : n.literal?.bind negated? with
  | some v =>
    obtain ⟨u, -, hu⟩ := Option.bind_eq_some_iff.mp hneg
    refine .drop (d := [n]) (List.forall_mem_singleton.mpr hn) (.refl _) ?_
    exact builds_literal hspan (isPlain_of_negated? hu)
  | none => exact builds_node hspan (List.forall_mem_singleton.mpr (.right _ _)) rfl (.refl _) (.neg hn rfl)

/-! ## Operators -/

theorem isPlain_of_checked {n : Option Int64} {v : Value} (h : Operator.checked n = .ok v) : v.isPlain = true := by
  cases n with
  | some n => cases h; rfl
  | none => cases h

theorem isPlain_of_intArithmetic {op : Operator} {a b : Int64} {v : Value} (h : op.intArithmetic a b = .ok v) :
    v.isPlain = true := by
  unfold Operator.intArithmetic at h
  split at h
  · exact isPlain_of_checked h
  · exact isPlain_of_checked h
  · exact isPlain_of_checked h
  all_goals
    split at h
    · cases h
    · exact isPlain_of_checked h

theorem isPlain_of_arithmetic {op : Operator} {lhs rhs v : Value} (h : op.arithmetic lhs rhs = .ok v) :
    v.isPlain = true := by
  unfold Operator.arithmetic at h
  split at h
  · exact isPlain_of_intArithmetic h
  · split at h
    · cases h; rfl
    · cases h

theorem isPlain_of_power {lhs rhs v : Value} (h : Operator.power lhs rhs = .ok v) : v.isPlain = true := by
  unfold Operator.power at h
  dsimp only at h
  repeat' split at h
  all_goals first
    | exact isPlain_of_checked h
    | cases h; rfl
    | cases h

section Apply

variable {lhs rhs : Value}

theorem equal_plain (hl : lhs.isPlain = true) (hr : rhs.isPlain = true) : ∃ b, ∀ h, lhs.equal h rhs = some b := by
  cases lhs with
  | list _ | array _ | map _ | object _ _ => cases hl
  | _ =>
    cases rhs with
    | list _ | array _ | map _ | object _ _ => cases hr
    | _ => exact ⟨_, fun _ => rfl⟩

theorem holds_plain (hl : lhs.isPlain = true) (hr : rhs.isPlain = true) : ∃ b, ∀ h, Operator.holds h lhs rhs = some b := by
  obtain ⟨s, hs⟩ := Value.text_plain hr
  cases lhs with
  | list _ | array _ | map _ | object _ _ => cases hl
  | str text => exact ⟨some (Text.occurs text s), fun h => by simp [Operator.holds, hs]⟩
  | _ => exact ⟨_, fun _ => rfl⟩

/-- An operator asks for something about the heap, which is the same for every heap if the operands are no references,
and gives a result, which is never a reference. -/
theorem apply_cases {P : HeapM Value → Prop} (op : Operator)
    (done : ∀ r : Except Fault Value, (∀ v, r = .ok v → v.isPlain = true) → P (Run.ofExcept r))
    (ask : ∀ {α : Type} {q : Heap → Option α} {k : α → HeapM Value},
      (lhs.isPlain = true → rhs.isPlain = true → ∃ a, ∀ h, q h = some a) → (∀ a, P (k a)) → P (Run.query q >>= k)) :
    P (op.apply lhs rhs) := by
  have gives {v : Value} (hv : v.isPlain = true) : P (pure v) := done (.ok v) fun _ h => by cases h; exact hv
  have fails (fault : Fault) : P (Run.fail fault) := done (.error fault) nofun
  unfold Operator.apply
  dsimp only
  cases op with
  | eq | ne => exact ask equal_plain fun _ => gives rfl
  | lt | gt | le | ge | shl | shr | ushr | instanceOf | is =>
    dsimp only
    split
    · exact gives rfl
    · exact fails _
  | add =>
    have texts : P (do let s ← lhs.display; pure (.str (s ++ (← rhs.display)))) :=
      ask (fun hl _ => Value.text_plain hl) fun _ => ask (fun _ hr => Value.text_plain hr) fun _ => gives rfl
    dsimp only
    split
    · exact texts
    · exact texts
    · exact gives rfl
    · exact done _ fun _ => isPlain_of_arithmetic
  | sub | mul | div | rem => exact done _ fun _ => isPlain_of_arithmetic
  | pow => exact done _ fun _ => isPlain_of_power
  | bitAnd | bitXor | bitOr =>
    dsimp only
    split
    · exact gives rfl
    · split
      · exact gives rfl
      · exact fails _
  | contains =>
    refine ask holds_plain fun found => ?_
    cases found with
    | some b => exact gives rfl
    | none => exact fails _
  | regexMatch | and | or => exact fails _

theorem isPlain_of_apply (op : Operator) : ∀ h v h', op.apply lhs rhs h = .ok v h' → v.isPlain = true := by
  refine apply_cases (P := fun x => ∀ h v h', x h = .ok v h' → v.isPlain = true) op ?_ ?_
  · exact fun r hr h v h' heq => hr v (Run.ofExcept_eq_ok.mp heq).1
  · intro α q k _ hk h v h' heq
    obtain ⟨a, h₁, -, hv⟩ := Run.bind_eq_ok.mp heq
    exact hk a h₁ v h' hv

end Apply

theorem isPlain_of_constant? {op : Operator} {lhs rhs : Node} {v : Value} (h : constant? op lhs rhs = some v) :
    v.isPlain = true := by
  unfold constant? at h
  obtain ⟨a, -, h⟩ := Option.bind_eq_some_iff.mp h
  obtain ⟨b, -, h⟩ := Option.bind_eq_some_iff.mp h
  split at h
  next heq => cases h; exact isPlain_of_apply op _ _ _ heq
  next => cases h

section Operators

open Precedence

variable {lo hi : Nat} {l r : Node} (hl : env.Stands lo hi env.Expr l) (hr : env.Stands lo hi env.Expr r)
include hl hr

theorem builds_regexNode : Builds w env [l, r] (regexNode l r) (fun n => [n]) (env.Stands lo hi env.Expr) := by
  have hspan := hl.span.cover hr.span
  have made : ∀ compiled, (∀ c, compiled = some c → ∃ text, r.literal? = some (.str text) ∧ Regex.whole text = .ok c) →
      Builds w env [l, r] (node (l.span.cover r.span) .bool (.regexMatch l r compiled)) (fun n => [n])
        (env.Stands lo hi env.Expr) := by
    intro compiled hc
    refine (builds_sound hspan.toIn (holds_operands l r) rfl rfl ?_ (.refl _) (.regexMatch hl.form hr.form rfl)).stands hspan
    cases compiled with
    | none => trivial
    | some c => exact hc c rfl
  unfold regexNode
  dsimp only
  split
  next text htext =>
    split
    next c hc =>
      refine Quiet.andThen (P := (· = some c)) (.pure rfl) fun compiled heq => made compiled fun c' hc' => ?_
      cases heq.symm.trans hc'
      exact ⟨text, htext, hc⟩
    next => exact Quiet.andThen (P := fun _ => False) (.fail (by simp) hr.span.start) fun _ h => h.elim
  next =>
    refine Quiet.andThen (P := (· = none)) (.pure rfl) fun compiled heq => made compiled fun c' hc' => ?_
    cases heq.symm.trans hc'

theorem builds_valuesNode (op : Operator) :
    Builds w env [l, r] (valuesNode op l r (l.span.cover r.span)) (fun n => [n]) (env.Stands lo hi env.Expr) := by
  have hspan := hl.span.cover hr.span
  unfold valuesNode
  cases hconst : constant? op l r with
  | some v =>
    refine .drop (d := [l, r]) (List.forall_mem_cons.mpr ⟨hl.form, List.forall_mem_singleton.mpr hr.form⟩) (.refl _) ?_
    exact (builds_literal hspan.toIn (isPlain_of_constant? hconst)).stands hspan
  | none => exact (builds_node hspan.toIn (holds_operands l r) rfl (.refl _) (.binary hl.form hr.form rfl)).stands hspan

theorem builds_binaryNode (op : Operator) :
    Builds w env [l, r] (binaryNode op l r) (fun n => [n]) (env.Stands lo hi env.Expr) := by
  have hspan := hl.span.cover hr.span
  have haround := holds_operands l r
  unfold binaryNode
  cases op with
  | and => exact (builds_node hspan.toIn haround rfl (.refl _) (.and hl.form hr.form rfl)).stands hspan
  | or => exact (builds_node hspan.toIn haround rfl (.refl _) (.or hl.form hr.form rfl)).stands hspan
  | regexMatch => exact builds_regexNode hl hr
  | eq | ne =>
    refine .ite (fun _ => ?_) fun _ => .ite (fun _ => ?_) fun _ => builds_valuesNode hl hr _
    · refine .drop (d := [r]) (List.forall_mem_singleton.mpr hr.form) (.swap _ _ _) ?_
      have haround : ∀ m ∈ [l], (l.span.cover r.span).Holds m.span := List.forall_mem_singleton.mpr (.left _ _)
      exact (builds_node hspan.toIn haround rfl (.refl _) (.emptyTest hl.form rfl)).stands hspan
    · refine .drop (d := [l]) (List.forall_mem_singleton.mpr hl.form) (.refl _) ?_
      have haround : ∀ m ∈ [r], (l.span.cover r.span).Holds m.span := List.forall_mem_singleton.mpr (.right _ _)
      exact (builds_node hspan.toIn haround rfl (.refl _) (.emptyTest hr.form rfl)).stands hspan
  | _ => exact builds_valuesNode hl hr _

omit hl hr in
theorem builds_build (g : Grouping Node) (h : ∀ n ∈ g.operands, env.Stands lo hi env.Expr n) :
    Builds w env g.operands (g.build binaryNode) (fun n => [n]) (env.Stands lo hi env.Expr) := by
  induction g with
  | leaf a => exact .pure rfl (h a (List.mem_singleton_self a))
  | join op lhs rhs ihl ihr =>
    rw [Grouping.operands_join] at h ⊢
    obtain ⟨hlhs, hrhs⟩ := List.forall_mem_append.mp h
    refine ((ihl hlhs).frame rhs.operands).bind fun l hl => .perm List.perm_append_comm ?_
    exact ((ihr hrhs).frame [l]).bind fun r hr => .perm (.swap _ _ _) (builds_binaryNode hl hr op)

omit hl hr in
theorem builds_fold {first : Node} {tail : List (Operator × Node)} (hfirst : env.Stands lo hi env.Expr first)
    (htail : ∀ i ∈ tail, env.Stands lo hi env.Expr i.2) :
    Builds w env (first :: tail.map (·.2)) (fold binaryNode first tail) (fun n => [n]) (env.Stands lo hi env.Expr) := by
  rw [fold_eq, ← Grouping.operands_ofSequence]
  refine builds_build _ ?_
  rw [Grouping.operands_ofSequence]
  exact List.forall_mem_cons.mpr ⟨hfirst, List.forall_mem_map.mpr htail⟩

end Operators

/-! ## Targets -/

section Targets

variable {left value : Node} {span : Span}

/-- What is written to by an assignment with a left side. -/
inductive Aimed (st : State) (left : Node) : Target → State → Prop where
  | name {p : Path} {s : SiteId} {name : String} {st' : State} (kind : left.kind = .property p s)
      (asName : p.asName? = some name) (keeps : st.Keeps st') : Aimed st left (.name name) st'
  | path {p : Path} {s site : SiteId} {st' : State} (kind : left.kind = .property p s)
      (numbers : st.Numbers site st') : Aimed st left (.path p site) st'

theorem settles_targetOf (h : left.span.In env.source) : Settles env st (targetOf left) (Aimed st left) := by
  refine (quiet_sourceText h st).bind fun text st₁ h₁ => .ite (fun _ => .fail (by simp) h.start) fun _ => ?_
  split
  next p s hkind =>
    split
    next name hname => exact .pure (.name hkind hname h₁.1)
    next =>
      refine .ite (fun _ => ?_) fun _ => .fail (by simp) h.start
      exact settles_newSite.bind fun site st₂ hs => .pure (.path hkind (h₁.1.numbers hs))
  next => exact .fail (by simp) h.start

/-- The left side of an assignment: if it is a path, it may be written to. -/
def Env.Assignable (env : Env) (left : Node) : Prop :=
  ∀ p s, left.kind = .property p s → p.TargetedIn (Path.Quotes env.source)

theorem Env.Assignable.of_sound (h : env.Sound left) : env.Assignable left :=
  fun _ _ hkind => .read (h.of_property hkind)

theorem children_of_property {p : Path} {s : SiteId} (h : n.kind = .property p s) : n.children = p.nodes := by
  unfold Node.children
  rw [h]

theorem Env.Assignable.isReserved {p : Path} {s : SiteId} {name : String} (h : env.Assignable left)
    (hkind : left.kind = .property p s) (hname : p.asName? = some name) : isReserved name = false :=
  Path.Targeted.isReserved_asName? ((h p s hkind).mono fun _ => Path.Quotes.spelled) hname

/-- An assignment that was made to a target. -/
structure Assigned (env : Env) (target : Target) (span : Span) (ty : Ty) (op : Option Operator) (value : Node) (st : State)
    (n : Node) (st' : State) : Prop where
  keeps : st.Keeps st'
  node : ∃ register, n = ⟨env.info (span.cover value.span) (match op with
      | some op => op.resultType ty value.egress
      | none => value.egress), .assignment target op (some value) none register⟩ ∧ target.Bound st'.layouts.head? register

theorem settles_assignTo {target : Target} {ty : Ty} {op : Option Operator}
    (h : IsPlace env.source (span.cover value.span).start) :
    Settles env st (assignTo target span ty op value) (Assigned env target span ty op value st) := by
  refine (settles_bindTarget h _ _ st).bind fun register st₁ h₁ => (quiet_node _ _ _ st₁).imp ?_
  rintro n st₂ ⟨hk, rfl⟩
  exact ⟨h₁.1.trans hk, register, rfl, h₁.2.mono hk.layouts⟩

theorem builds_nameAssignment {name : String} {ty : Ty} {op : Option Operator} (hspan : (span.cover value.span).In env.source)
    (hfree : w → isReserved name = false) (hv : env.Expr value) :
    Builds w env [value] (assignTo (.name name) span ty op value) (fun n => [n]) fun n =>
      n.span = span.cover value.span ∧ env.Expr n := by
  intro st₀ st others hheld
  refine (settles_assignTo hspan.start).imp ?_
  rintro n st' ⟨hk, register, rfl, hbound⟩
  have haround : ∀ m ∈ [value], (span.cover value.span).Holds m.span := List.forall_mem_singleton.mpr (.right _ _)
  refine ⟨.plain hheld hk (env.lies hspan (.refl _) haround) hfree ?_ rfl, rfl, .assignment ty nofun hv rfl⟩
  rintro b ⟨⟩
  exact hbound

section

variable (hl : env.Expr left) (haround : ∀ m ∈ left.children, left.span.Holds m.span)
include hl haround

theorem builds_assignment (ha : w → env.Assignable left) (op : Option Operator) (hleft : left.span.In env.source)
    (hspan : (left.span.cover value.span).In env.source) (hv : env.Expr value) :
    Builds w env (left.children ++ [value]) (assignment left op value) (fun n => [n]) fun n =>
      n.span = left.span.cover value.span ∧ env.Expr n := by
  intro st₀ st others hheld
  refine (settles_targetOf hleft).bind fun target st₁ ht => ?_
  cases ht with
  | name hkind hname hk =>
    rw [List.append_assoc] at hheld
    refine builds_nameAssignment hspan (fun hw => ?_) hv _ _ _ ((hheld.drop fun m hm => hl.child hm).keeps hk)
    exact (ha hw).isReserved hkind hname
  | path hkind hs =>
    refine (settles_assignTo hspan.start).imp ?_
    rintro n st₂ ⟨hk, register, rfl, -⟩
    rw [children_of_property hkind] at hheld haround
    have hparts := (hl.of_property hkind).1
    refine ⟨.keeps (.numbered hheld hs (env.lies hspan (.refl _) ?_) (fun hw => ha hw _ _ hkind) rfl) hk, rfl,
      .assignment _ hparts hv rfl⟩
    refine List.forall_mem_append.mpr ⟨fun m hm => ?_, List.forall_mem_singleton.mpr (.right _ _)⟩
    exact (Span.Holds.left _ _).trans (haround m hm)

theorem builds_increment (hs : w → env.Sound left) {delta : Int64} {before : Bool} (hleft : left.span.In env.source)
    (hspan : span.In env.source) (hholds : span.Holds left.span) :
    Builds w env left.children (increment left delta before span) (fun n => [n]) fun n => n.span = span ∧ env.Expr n := by
  intro st₀ st others hheld
  refine (settles_targetOf hleft).bind fun target st₁ ht => (quiet_node _ _ _ st₁).imp ?_
  rintro n st₂ ⟨hk, rfl⟩
  cases ht with
  | name hkind hname hk₁ =>
    have hfree : w → isReserved _ = false := fun hw => (Env.Assignable.of_sound (hs hw)).isReserved hkind hname
    refine ⟨.plain (hheld.drop fun m hm => hl.child hm) (hk₁.trans hk) (env.lies hspan (.refl _) nofun) hfree
      ?_ rfl, rfl, .increment nofun (hl.of_property hkind).2⟩
    rintro b ⟨⟩
  | path hkind hsite =>
    rw [children_of_property hkind] at hheld haround
    obtain ⟨hparts, hany⟩ := hl.of_property hkind
    refine ⟨.keeps (.numbered hheld hsite (env.lies hspan (.refl _) fun m hm => ?_) (fun hw => (hs hw).of_property hkind)
      rfl) hk, rfl, .increment hparts hany⟩
    exact hholds.trans (haround m hm)

end

theorem nodes_rebased (p : Path) : p.rebased.nodes = p.nodes := by
  have hs : ∀ s : Segment, s.rebased.nodes = s.nodes := fun s => by cases s <;> rfl
  have hthis : Segment.this.nodes = [] := rfl
  simp only [Path.nodes, Path.rebased, List.flatMap_cons, hthis, List.nil_append, List.flatMap_map, hs]

/-- The left side of an assignment in the body of a `with` keeps its place and its expressions. -/
theorem quiet_rebase (hspan : n.span.In env.source) (hform : env.Expr n) : Quiet env (rebase n) fun left =>
    env.Expr left ∧ left.span = n.span ∧ left.children = n.children ∧  (env.Sound n → env.Assignable left) := by
  unfold rebase
  cases hform with
  | @property i p site parts egress =>
    dsimp only
    split
    · exact .pure ⟨.property parts egress, rfl, rfl, .of_sound⟩
    next hne =>
      refine .pure ⟨.property (fun m hm => parts m (nodes_rebased p ▸ hm)) egress, rfl, nodes_rebased p, ?_⟩
      rintro hspelled q s ⟨⟩
      have hspelled : p.Quotes env.source := hspelled
      obtain ⟨first, steps, hshape⟩ := hspelled.spelled.exists_cons
      refine .rebased hspelled hshape ?_
      rintro rfl
      obtain ⟨segment, more, hsegments, hthis, -⟩ := List.map_eq_cons_iff.mp hshape
      cases segment with
      | this => exact hne more hsegments
      | _ => cases hthis
  | _ => exact .fail (by simp) hspan.start

end Targets

/-! ## Paths -/

/-- A path has no type unless types are verified. -/
theorem quiet_pathType {offset : Nat} (segments : List Segment) (h : IsPlace env.source offset) :
    Quiet env (pathType segments offset) fun ty => env.options.verifies = false → ty = .any := by
  by_cases hv : env.options.verifies = false
  · refine .bind .state fun st _ => .bind .ask fun e he => ?_
    subst he
    rw [hv, Bool.and_false, if_neg (by decide)]
    exact .pure fun _ => rfl
  · exact ((checks_pathType _ _).quiet h).imp fun _ _ hv' => absurd hv' hv

theorem builds_pathNode {start stop : Nat} {steps : List (Segment × Nat)} (hspan : Span.In env.source ⟨start, stop⟩)
    (hstop : start + (steps.map fun s => s.2 - start).getLast?.getD 0 = stop)
    (hparts : ∀ s ∈ steps, ∀ m ∈ s.1.nodes, env.Stands start stop env.Expr m)
    (hspelled : w → ∀ p : Path, p.text = String.ofList (Text.slice env.source start stop) →
      p.segments = steps.map (·.1) → p.cuts = (steps.map fun s => s.2 - start) → p.Spelled) :
    Builds w env ((steps.map (·.1)).flatMap Segment.nodes) (pathNode start steps) (fun n => [n]) fun n =>
      n.span = ⟨start, stop⟩ ∧ env.Expr n := by
  have hnodes : ∀ m ∈ (steps.map (·.1)).flatMap Segment.nodes, env.Stands start stop env.Expr m := by
    intro m hm
    obtain ⟨s, hs, hm⟩ := List.mem_flatMap.mp hm
    obtain ⟨step, hstep, rfl⟩ := List.mem_map.mp hs
    exact hparts step hstep m hm
  unfold pathNode
  dsimp only
  rw [hstop]
  refine (quiet_pathType _ hspan.start).andThen fun ty hty => (quiet_info _ ty).andThen fun i hi => ?_
  subst hi
  refine (quiet_sourceText hspan).andThen fun text htext st₀ st others hheld => ?_
  refine settles_newSite.bind fun site st₁ hs => .pure ⟨.numbered hheld hs (env.lies hspan (.refl _) fun m hm => ?_)
    (fun hw => ?_) rfl, rfl, ?_⟩
  · exact ⟨(hnodes m hm).span.lower, (hnodes m hm).span.upper⟩
  · refine ⟨hspelled hw _ (congrArg String.ofList htext) rfl rfl, ?_⟩
    rw [hspan.slice?, ← htext, String.toList_ofList]
  · exact .property (fun m hm => (hnodes m hm).form) hty

end PathScript.Compile
