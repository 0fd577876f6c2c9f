import PathScript.Proofs.Bare
import PathScript.Proofs.Checked

/-! # Compilations side by side

The same steps are run with two sets of options that import the same names, the
second of which is not strict. What is recorded of types and lines is looked at
again only to record more of it, to agree on declarations with a written type,
and to fail where options are strict. So wherever the first compilation gets on,
the second does too, and makes the same program. Where they number sites and
functions from different numbers on, the trees are the same in outline only. -/

namespace PathScript.Compile

variable {w : Prop} {α β γ δ : Type}

/-! ## States and environments that are alike -/

/-- A name as far as compilation depends on it: a type counts if it was written. -/
def Declared.bare (d : Declared) : Declared := if d.explicit then d else ⟨.any, false⟩

/-- Blocks that declare the same names, with the same written types. -/
def SameNames (b b' : Dict Declared) : Prop :=
  ∀ name, (b.get? name).map Declared.bare = (b'.get? name).map Declared.bare

theorem SameNames.refl (b : Dict Declared) : SameNames b b := fun _ => rfl

theorem SameNames.insert {b b' : Dict Declared} {d d' : Declared} (h : SameNames b b') (hd : d.bare = d'.bare)
    (name : String) : SameNames (b.insert name d) (b'.insert name d') := by
  intro other
  rw [Dict.get?_insert, Dict.get?_insert]
  split
  · rw [Option.map_some, Option.map_some, hd]
  · exact h other

/-- States that differ in nothing but recorded types and lines, and in numbers unless `w` holds. -/
structure State.Alike (w : Prop) (st st' : State) : Prop where
  imports : st.imports = st'.imports
  blocks : List.Forall₂ SameNames st.blocks st'.blocks
  layouts : st.layouts = st'.layouts
  quiet : st.quiet = st'.quiet
  nextSite : w → st.nextSite = st'.nextSite
  nextFunction : w → st.nextFunction = st'.nextFunction
  functions : w → st.functions.map Function.bare = st'.functions.map Function.bare

theorem State.Alike.start {site function site' function' : Nat} (h : w → site = site' ∧ function = function') :
    (State.start site function).Alike w (.start site' function') :=
  ⟨rfl, .cons (.refl .empty) .nil, rfl, rfl, fun hw => (h hw).1, fun hw => (h hw).2, fun _ => rfl⟩

theorem State.Alike.declared? {st st' : State} (h : st.Alike w st') (name : String) :
    (st.declared? name).isNone = (st'.declared? name).isNone := by
  have found : ∀ bs bs', List.Forall₂ SameNames bs bs' →
      (bs.findSome? (·.get? name)).isNone = (bs'.findSome? (·.get? name)).isNone := by
    intro bs bs' hbs
    induction hbs with
    | nil => rfl
    | @cons b b' bs bs' hb _ ih =>
      have hname := hb name
      rw [List.findSome?_cons, List.findSome?_cons]
      cases hget : b.get? name <;> cases hget' : b'.get? name
      · exact ih
      · rw [hget, hget'] at hname; cases hname
      · rw [hget, hget'] at hname; cases hname
      · rfl
  exact found _ _ h.blocks

/-- The same source with the same names to import, and nothing refused for want of a type. -/
structure Env.Relaxes (env env' : Env) : Prop where
  source : env.source = env'.source
  library : env.library = env'.library
  imports : env.options.imports = env'.options.imports
  lenient : env'.options.strict = false

section Environments

variable {env env' : Env} {st st' : State} (henv : env.Relaxes env') (hst : st.Alike w st')
include henv hst

theorem imported?_eq (name : String) : imported? env st name = imported? env' st' name := by
  unfold imported?
  rw [henv.imports, hst.imports]

theorem classNamed?_eq (name : String) : classNamed? env st name = classNamed? env' st' name := by
  unfold classNamed?
  rw [imported?_eq henv hst, henv.library]

theorem typeNamed?_eq (name : String) : typeNamed? env st name = typeNamed? env' st' name := by
  unfold typeNamed?
  rw [classNamed?_eq henv hst]

end Environments

/-! ## Rules -/

/-- Wherever the first step gets on, the second does too, with a result that is related and a state that is alike. -/
def Follows (w : Prop) (x : CompileM α) (y : CompileM β) (R : α → β → Prop) : Prop :=
  ∀ ⦃env env' : Env⦄, env.Relaxes env' → ∀ ⦃st st' : State⦄, st.Alike w st' → ∀ a s, x env st = .ok (a, s) →
    ∃ b s', y env' st' = .ok (b, s') ∧ R a b ∧ s.Alike w s'

/-- A step that gives the same result in both compilations. -/
abbrev Steady (w : Prop) (x : CompileM α) : Prop := Follows w x x Eq

namespace Follows

variable {x x' : CompileM α} {y y' : CompileM β} {f : α → CompileM γ} {g : β → CompileM δ} {R R' : α → β → Prop}
  {S : γ → δ → Prop}

theorem pure {a : α} {b : β} (h : R a b) : Follows w (pure a) (pure b) R := by
  intro env env' _ st st' hst a s heq
  cases heq
  exact ⟨b, st', rfl, h, hst⟩

theorem bind (hx : Follows w x y R) (hf : ∀ a b, R a b → Follows w (f a) (g b) S) : Follows w (x >>= f) (y >>= g) S := by
  intro env env' henv st st' hst c s heq
  have heq : CompileM.bind x f env st = .ok (c, s) := heq
  unfold CompileM.bind at heq
  cases h : x env st with
  | error e => rw [h] at heq; cases heq
  | ok r =>
    rw [h] at heq
    obtain ⟨b, s', hy, hr, hs⟩ := hx henv hst _ _ h
    obtain ⟨d, s'', hg, hd⟩ := hf _ _ hr henv hs _ _ heq
    refine ⟨d, s'', ?_, hd⟩
    change CompileM.bind y g env' st' = _
    unfold CompileM.bind
    rw [hy]
    exact hg

theorem imp (hx : Follows w x y R) (h : ∀ a b, R a b → R' a b) : Follows w x y R' := fun _ _ henv _ _ hst a s heq =>
  let ⟨b, s', hy, hr, hs⟩ := hx henv hst a s heq
  ⟨b, s', hy, h a b hr, hs⟩

/-- A step with the same result in both compilations, before any other. -/
theorem next {x : CompileM α} {f : α → CompileM γ} {g : α → CompileM δ} (hx : Steady w x)
    (hf : ∀ a, Follows w (f a) (g a) S) : Follows w (x >>= f) (x >>= g) S :=
  hx.bind fun a _ h => h ▸ hf a

theorem fail {fault : CompileFault} {offset : Nat} : Follows w (CompileM.fail fault offset) y R := by
  intro env env' _ st st' _ a s heq
  cases heq

theorem ite {c c' : Prop} [Decidable c] [Decidable c'] (hc : c ↔ c') (hx : c → Follows w x y R)
    (hy : ¬ c → Follows w x' y' R) : Follows w (if c then x else x') (if c' then y else y') R := by
  by_cases h : c
  · rw [if_pos h, if_pos (hc.mp h)]
    exact hx h
  · rw [if_neg h, if_neg (mt hc.mpr h)]
    exact hy h

theorem state : Follows w CompileM.state CompileM.state (State.Alike w) := by
  intro env env' _ st st' hst a s heq
  cases heq
  exact ⟨st', st', rfl, hst, hst⟩

theorem ask : Follows w CompileM.env CompileM.env Env.Relaxes := by
  intro env env' henv st st' hst a s heq
  cases heq
  exact ⟨env', st', rfl, henv, hst⟩

theorem modify {f g : State → State} (h : ∀ st st' : State, st.Alike w st' → (f st).Alike w (g st')) :
    Follows w (CompileM.modify f) (CompileM.modify g) fun _ _ => True := by
  intro env env' _ st st' hst a s heq
  cases heq
  exact ⟨(), g st', rfl, trivial, h st st' hst⟩

end Follows

theorem Static.steady {x : CompileM α} (h : Static x) : Steady w x := by
  obtain ⟨r, rfl⟩ := h
  intro env env' _ st st' hst a s heq
  cases r with
  | error e => cases heq
  | ok a => cases heq; exact ⟨a, st', rfl, rfl, hst⟩

theorem Follows.read {x : CompileM α} {f : α → CompileM γ} {g : α → CompileM δ} {S : γ → δ → Prop} (hx : Static x)
    (hf : ∀ a, Follows w (f a) (g a) S) : Follows w (x >>= f) (x >>= g) S := .next hx.steady hf

theorem follows_unexpected (t : Token) {y : CompileM β} {R : α → β → Prop} : Follows w (unexpected t) y R := by
  unfold unexpected
  split
  · exact .fail
  · exact .fail

/-- What a check finds has no bearing on whether another one in its place succeeds. -/
theorem Checks.follows {offset offset' : Nat} {x : CompileM α} {y : CompileM β} (hx : Checks offset x)
    (hy : Checks offset' y) : Follows w x y fun _ _ => True := by
  intro env env' henv st st' hst a s heq
  obtain ⟨b, hb⟩ | ⟨hstrict, -⟩ := hy env' st'
  · refine ⟨b, st', hb, trivial, ?_⟩
    obtain ⟨a', ha⟩ | ⟨-, fault, -, he⟩ := hx env st
    · cases heq.symm.trans ha
      exact hst
    · cases heq.symm.trans he
  · rw [henv.lenient] at hstrict
    cases hstrict

/-! ## Nodes and names -/

theorem follows_info {span span' : Span} (hspan : span = span') (ty ty' : Ty) :
    Follows w (info span ty) (info span' ty') fun i i' => i.bare = i'.bare := by
  refine .bind .ask fun env env' _ => .pure ?_
  rw [Info.bare, Info.bare, hspan]

theorem follows_node {span span' : Span} {kind kind' : NodeKind} (hspan : span = span')
    (hkind : w → kind.bare = kind'.bare) (ty ty' : Ty) (houtline : kind.outline = kind'.outline := by rfl) :
    Follows w (node span ty kind) (node span' ty' kind') (Node.Alike w) := by
  refine .bind (follows_info hspan ty ty') fun i i' hi => .pure ⟨?_, houtline, fun hw => ?_⟩
  · exact (congrArg Info.span hi : i.bare.span = i'.bare.span)
  · rw [Node.bare, Node.bare, hi, hkind hw]

theorem follows_literal (v : Value) {span span' : Span} (hspan : span = span') :
    Follows w (literal v span) (literal v span') (Node.Alike w) :=
  follows_node hspan (fun _ => rfl) _ _

theorem follows_newSite : Follows w newSite newSite fun s s' => w → s = s' := by
  intro env env' _ st st' hst a s heq
  cases heq
  exact ⟨_, _, rfl, hst.nextSite, { hst with nextSite := fun hw => congrArg (· + 1) (hst.nextSite hw) }⟩

theorem steady_sourceText (span : Span) : Steady w (sourceText span) := by
  refine .bind .ask fun env env' henv => ?_
  rw [henv.source]
  cases Text.slice? env'.source span.start span.stop with
  | none => exact .fail
  | some text => exact .pure rfl

theorem steady_classNamed (name : String) : Steady w (classNamed name) := by
  intro env env' henv st st' hst a s heq
  cases heq
  exact ⟨_, st', rfl, classNamed?_eq henv hst name, hst⟩

theorem steady_typeNamed (name : String) : Steady w (typeNamed name) := by
  intro env env' henv st st' hst a s heq
  cases heq
  exact ⟨_, st', rfl, typeNamed?_eq henv hst name, hst⟩

theorem steady_typeOfToken (t : Token) : Steady w (typeOfToken t) := by
  refine .next (steady_typeNamed t.text) fun ty => ?_
  cases ty with
  | some ty => exact .pure rfl
  | none => exact .fail

theorem steady_bindable (t : Token) : Steady w (bindable t) :=
  .ite Iff.rfl (fun _ => .fail) fun _ => .pure rfl

theorem Declared.conflict_eq {d d' e e' : Declared} (hd : d.bare = d'.bare) (he : e.bare = e'.bare) :
    (d.explicit && e.explicit && e.ty != d.ty) = (d'.explicit && e'.explicit && e'.ty != d'.ty) := by
  obtain ⟨ty, explicit⟩ := d
  obtain ⟨ty', explicit'⟩ := d'
  obtain ⟨ety, eexplicit⟩ := e
  obtain ⟨ety', eexplicit'⟩ := e'
  cases explicit <;> cases explicit' <;> cases eexplicit <;> cases eexplicit' <;> simp_all [Declared.bare]

theorem follows_declare {d d' : Declared} (hd : d.bare = d'.bare) (name : String) (offset : Nat) :
    Follows w (declare name d offset) (declare name d' offset) fun _ _ => True := by
  refine .bind .state fun st st' hst => ?_
  obtain hblocks := hst.blocks
  revert hblocks
  cases st.blocks <;> cases st'.blocks <;> intro hblocks <;> cases hblocks
  · exact .pure trivial
  next b bs b' bs' hb hbs =>
    have hset : Follows w (CompileM.modify fun st => { st with blocks := b.insert name d :: bs })
        (CompileM.modify fun st => { st with blocks := b'.insert name d' :: bs' }) fun _ _ => True :=
      .modify fun _ _ h => { h with blocks := .cons (hb.insert hd name) hbs }
    have hname := hb name
    dsimp only
    cases hget : b.get? name with
    | none =>
      rw [hget, Option.map_none, eq_comm, Option.map_eq_none_iff] at hname
      rw [hname]
      exact hset
    | some e =>
      rw [hget, Option.map_some, eq_comm, Option.map_eq_some_iff] at hname
      obtain ⟨e', hget', he⟩ := hname
      rw [hget']
      refine .ite (by rw [Declared.conflict_eq hd he.symm]) (fun _ => ?_) fun _ => hset
      exact .bind (R := fun _ _ => False) .fail fun _ _ h => h.elim

theorem follows_inBlock {names names' : Dict Declared} {x : CompileM α} {y : CompileM β} {R : α → β → Prop}
    (hnames : SameNames names names') (hx : Follows w x y R) : Follows w (inBlock names x) (inBlock names' y) R := by
  refine .bind (.modify fun _ _ h => { h with blocks := .cons hnames h.blocks }) fun _ _ _ => ?_
  refine .bind hx fun a b hab => ?_
  refine .bind (.modify fun st st' h => { h with blocks := ?_ }) fun _ _ _ => .pure hab
  have hblocks := h.blocks
  cases hst : st.blocks <;> cases hst' : st'.blocks <;> rw [hst, hst'] at hblocks <;> cases hblocks
  · exact .nil
  · assumption

theorem steady_allocate (name : String) : Steady w (allocate name) := by
  intro env env' _ st st' hst a s heq
  unfold allocate at heq ⊢
  rw [← hst.layouts]
  split at heq
  · cases heq
    exact ⟨_, _, rfl, rfl, hst⟩
  · cases heq
    exact ⟨_, _, rfl, rfl, { hst with layouts := rfl }⟩

theorem steady_noteRead (name : String) : Steady w (noteRead name) := by
  intro env env' henv st st' hst a s heq
  unfold noteRead at heq ⊢
  rw [← hst.layouts, ← classNamed?_eq henv hst]
  split at heq
  · cases heq
    exact ⟨_, _, rfl, rfl, hst⟩
  split at heq
  · cases heq
    exact ⟨_, _, if_pos ‹_›, rfl, hst⟩
  · cases heq
    exact ⟨_, _, if_neg ‹_›, rfl, { hst with layouts := rfl }⟩

theorem steady_noteRoot (name : String) : Steady w (noteRoot name) :=
  .bind .state fun _ _ hst => .ite (by rw [hst.quiet]) (fun _ => steady_noteRead name) fun _ => .pure rfl

theorem steady_classOperand? (name : String) : Steady w (classOperand? name) := by
  refine .next (steady_classNamed name) fun c => ?_
  cases c with
  | some c => exact .pure rfl
  | none => exact .pure rfl

end PathScript.Compile
