import PathScript.Proofs.Creation
import PathScript.Proofs.PathText

/-! # Faithful memory

Accelerated evaluation remembers things about places of programs: cells for
paths, templates for literals, choices for `new` expressions, and units for the
texts of paths. What is remembered is faithful if it is true of the place,
whatever happens there next. How often something was read, when, and under which
generation does not matter.

The path of a cell is not kept with the cell. It is given here by a list with
one path for each cell, which only grows. -/

namespace PathScript

variable {classes : ClassTable} {trees trees' : List Node}

/-! ## Paths that units are made for -/

/-- A path that is read, or the container of one that is written. -/
inductive Path.Learned (trees : List Node) : Path → Prop where
  | read {n : Node} {p : Path} {site : SiteId} (among : Node.Among trees n) (kind : n.kind = .property p site) :
      Learned trees p
  | container {n : Node} {p : Path} {site : SiteId} (among : Node.Among trees n)
      (target : n.target? = some (.path p site)) : Learned trees (Access.container p)

/-- The text of a path tells whether its second segment is an expression. It does not for `this.null`, if that is a
member here and the start of `null?.x = 1` in the body of a `with` there. -/
def Unambiguous (trees : List Node) : Prop :=
  ∀ p q, Path.Learned trees p → Path.Learned trees q → p.text = q.text →
    (p.shape[1]? = some .base ↔ q.shape[1]? = some .base)

theorem Path.Learned.mono {p : Path} (h : Learned trees p) (hs : trees ⊆ trees') : Learned trees' p := by
  cases h with
  | read among kind => exact .read (among.mono hs) kind
  | container among target => exact .container (among.mono hs) target

theorem Unambiguous.subset (h : Unambiguous trees') (hs : trees ⊆ trees') : Unambiguous trees :=
  fun p q hp hq => h p q (hp.mono hs) (hq.mono hs)

theorem Path.Learned.written {lo hi : SiteId} {p : Path} (h : Learned trees p) (hg : Grown lo hi trees) :
    Written p.text p.shape := by
  cases h with
  | read among kind => exact .plain ((hg.sound _ among).of_property kind).whole
  | container among target =>
    exact Targeted.written_take ((hg.sound _ among).targeted (Node.path?_of_target target)) _

/-- Texts are unambiguous as long as no path that is written was put behind `this` with an expression in front. -/
theorem unambiguous_of_targets {lo hi : SiteId} (hg : Grown lo hi trees)
    (ht : ∀ n, Node.Among trees n → ∀ p site, n.target? = some (.path p site) → p.shape[1]? ≠ some .base) :
    Unambiguous trees := by
  have never : ∀ p, Path.Learned trees p → p.shape[1]? ≠ some .base := by
    intro p hp
    cases hp with
    | read among kind => exact ((hg.sound _ among).of_property kind).whole.second_ne_base
    | container among target =>
      intro hbase
      rw [Access.container, Path.shape_take, List.getElem?_take] at hbase
      split at hbase
      · exact ht _ among _ _ target hbase
      · cases hbase
  exact fun p q hp hq _ => ⟨fun h => absurd h (never p hp), fun h => absurd h (never q hq)⟩

/-- Every path that has the text of a path has its form. -/
def Path.TextTells (trees : List Node) (p : Path) : Prop := ∀ q, Learned trees q → q.text = p.text → q.shape = p.shape

/-- Where texts are unambiguous, paths with one text have one form. -/
theorem Path.Learned.textTells {lo hi : SiteId} {p : Path} (hp : Learned trees p) (hg : Grown lo hi trees)
    (hu : Unambiguous trees) : p.TextTells trees := by
  intro q hq htext
  have hwritten : Written q.text p.shape := htext ▸ hp.written hg
  exact ((hq.written hg).almostEqual hwritten).eq_iff.mpr (hu q p hq hp htext)

/-- The text of a path that starts with a name tells its form, whatever other paths there are. -/
theorem Path.Learned.textTells_of_root {lo hi : SiteId} {p : Path} {name : String} (hp : Learned trees p)
    (hg : Grown lo hi trees) (hroot : p.shape[0]? = some (.root name)) : p.TextTells trees := by
  intro q hq htext
  have hwritten : Written q.text p.shape := htext ▸ hp.written hg
  have halmost := (hq.written hg).almostEqual hwritten
  have hq' : q.shape[1]? ≠ some .base :=
    (hq.written hg).second_ne_base_of_root ((halmost.others 0 (by decide)).trans hroot)
  have hp' : p.shape[1]? ≠ some .base := (hp.written hg).second_ne_base_of_root hroot
  exact halmost.eq_iff.mpr ⟨fun h => absurd h hq', fun h => absurd h hp'⟩

/-! ## What is remembered about a place -/

/-- A unit whose steps fit the segments of a path. -/
def SpecializedUnit.Fits (classes : ClassTable) (u : SpecializedUnit) (p : Path) : Prop :=
  List.Forall₂ (UnitStep.Fits classes) u.steps p.segments

/-- A unit for what was met on a path with some text. -/
def SpecializedUnit.MadeFor (classes : ClassTable) (trees : List Node) (u : SpecializedUnit) (text : String) : Prop :=
  ∃ key p met v, Path.Learned trees p ∧ p.text = text ∧ u = generate classes key p met v

theorem SpecializedUnit.MadeFor.mono {u : SpecializedUnit} {text : String} (h : u.MadeFor classes trees text)
    (hs : trees ⊆ trees') : u.MadeFor classes trees' text := by
  obtain ⟨key, p, met, v, hp, hrest⟩ := h
  exact ⟨key, p, met, v, hp.mono hs, hrest⟩

/-- A unit that was made for a text fits a path that has this text, if the text tells the form of the path. -/
theorem SpecializedUnit.MadeFor.fits {u : SpecializedUnit} {p : Path} (h : u.MadeFor classes trees p.text)
    (htext : p.TextTells trees) : u.Fits classes p := by
  obtain ⟨key, q, met, v, hq, heq, rfl⟩ := h
  exact UnitStep.ofPath_fits classes met (htext q hq heq)

/-- The cell for the container of a path that is written, which a path of one segment does not have. -/
inductive Path.HasContainer (paths : List Path) (p : Path) : Option CellId → Prop where
  | none (short : p.length ≤ 1) : HasContainer paths p none
  | some {cell : CellId} (long : 1 < p.length) (cellOf : paths[cell]? = some (Access.container p)) :
      HasContainer paths p (some cell)

theorem Path.HasContainer.mono {paths more : List Path} {p : Path} {cell : Option CellId} (h : HasContainer paths p cell)
    (hle : paths <+: more) : HasContainer more p cell := by
  cases h with
  | none short => exact .none short
  | some long cellOf => exact .some long (getElem?_of_grown cellOf hle)

/-- An evaluator that takes literals for what they are. -/
def Evaluator.TakesLiterals (ev : Evaluator) : Prop :=
  ∀ {f : Frame} {n : Node} {v : Value}, n.kind = .literal v → ev f n = pure v

/-- A template that gives what a literal builds. -/
def Template.Stands (t : Template) (c : CollectionLiteral) : Prop :=
  ∀ (ev : Evaluator) (f : Frame), ev.TakesLiterals → c.build ev f = Access.buildVia ev f c (some t)

/-- Cells belong to paths in the order of a list, sites have the cells of their paths, and a unit is kept where the text of
a path it was made for is looked up. -/
structure Traced (classes : ClassTable) (trees : List Node) (paths : List Path) (a : Accelerator) : Prop where
  size : a.cells.size = paths.length
  learned : ∀ p ∈ paths, p.Learned trees
  cells : ∀ {cell p c u}, paths[cell]? = some p → a.cells.get? cell = some c → c.unit? = some u →
    u.MadeFor classes trees p.text
  units : ∀ {key u}, (key, u) ∈ a.registry.units → u.MadeFor classes trees key.path
  reads : ∀ {site cell}, a.reads.get? site = some cell →
    ∃ n p, Node.Among trees n ∧ n.kind = .property p site ∧ paths[cell]? = some p
  writes : ∀ {site cell}, a.writes.get? site = some cell →
    ∃ n p, Node.Among trees n ∧ n.target? = some (.path p site) ∧ p.HasContainer paths cell

/-- All that is remembered is true of its place. -/
structure Faithful (classes : ClassTable) (trees : List Node) (paths : List Path) (a : Accelerator) : Prop
    extends Traced classes trees paths a where
  collections : ∀ {site t}, a.collections.get? site = some (some t) →
    ∃ n c, Node.Among trees n ∧ n.kind = .collection c site ∧ t.Stands c
  creations : ∀ {site types target}, a.creations.get? site = some (.cached (some (types, target))) →
    ∃ n c, Node.Among trees n ∧ n.kind = .newObject c site ∧ c.Chosen classes types target

/-! ## Templates -/

theorem Node.Sound.isPlain {n : Node} {v : Value} (h : n.Sound) (hk : n.kind = .literal v) : v.isPlain = true := by
  unfold Sound SoundIn at h
  rwa [hk] at h

namespace Template

variable {ev : Evaluator} {f : Frame}

theorem of?_stamp (t : Template) (h : Heap) : of? (t.stamp h).2 (t.stamp h).1 = some t := by
  cases t with
  | list items => simp [of?, stamp, Heap.newList, Heap.list, Table.get?_alloc]
  | array items => simp [of?, stamp, Heap.newArray, Heap.array, Table.get?_alloc]
  | map entries => simp [of?, stamp, Heap.newMap, Heap.map, Table.get?_alloc]

/-- A template of values that are no references. -/
def IsPlain : Template → Prop
  | list items => ∀ v ∈ items.toList, v.isPlain = true
  | array items => ∀ v ∈ items.toList, v.isPlain = true
  | map entries => ∀ e ∈ entries.entries, e.2.isPlain = true

/-- The values of literals do not depend on when they are evaluated. -/
theorem exists_evalAll {ns : List Node} (h : ns.all Node.isLiteral = true) (hs : ∀ n ∈ ns, n.Sound) :
    ∃ vs : List Value, (∀ v ∈ vs, v.isPlain = true) ∧
      ∀ (ev : Evaluator) (f : Frame), ev.TakesLiterals → Walk.evalAll ev f ns = pure vs := by
  induction ns with
  | nil => exact ⟨[], by simp, fun _ _ _ => rfl⟩
  | cons n rest ih =>
    obtain ⟨hn, hrest⟩ := (Bool.and_eq_true _ _).mp (List.all_cons ▸ h)
    obtain ⟨hsound, hsounds⟩ := List.forall_mem_cons.mp hs
    obtain ⟨v, hv⟩ := Node.exists_literal hn
    obtain ⟨vs, hplain, hvs⟩ := ih hrest hsounds
    refine ⟨v :: vs, List.forall_mem_cons.mpr ⟨hsound.isPlain hv, hplain⟩, fun ev f hev => ?_⟩
    simp only [Walk.evalAll, hev hv, hvs ev f hev, pure_bind]

theorem exists_evalEntries {entries : List (Node × Node)}
    (h : entries.all (fun e => e.1.isLiteral && e.2.isLiteral) = true) (hs : ∀ e ∈ entries, e.1.Sound ∧ e.2.Sound)
    {d : Dict Value} (hd : ∀ e ∈ d.entries, e.2.isPlain = true) :
    ∃ d' : Dict Value, (∀ e ∈ d'.entries, e.2.isPlain = true) ∧
      ∀ (ev : Evaluator) (f : Frame), ev.TakesLiterals → CollectionLiteral.evalEntries ev f entries d = pure d' := by
  induction entries generalizing d with
  | nil => exact ⟨d, hd, fun _ _ _ => rfl⟩
  | cons e rest ih =>
    obtain ⟨he, hrest⟩ := (Bool.and_eq_true _ _).mp (List.all_cons ▸ h)
    obtain ⟨hkey, hvalue⟩ := (Bool.and_eq_true _ _).mp he
    obtain ⟨k, hk⟩ := Node.exists_literal hkey
    obtain ⟨v, hv⟩ := Node.exists_literal hvalue
    obtain ⟨⟨hsound, hsound'⟩, hsounds⟩ := List.forall_mem_cons.mp hs
    obtain ⟨text, htext⟩ := Value.text_plain (hsound.isPlain hk)
    have hinsert : ∀ e ∈ (d.insert text v).entries, e.2.isPlain = true := fun e he => by
      obtain rfl | he := Entries.mem_put he
      · exact hsound'.isPlain hv
      · exact hd e he
    obtain ⟨d', hplain, hd'⟩ := ih hrest hsounds hinsert
    refine ⟨d', hplain, fun ev f hev => ?_⟩
    have hquery : (Run.query fun m => k.key m.store.heap : EvalM String) = pure text := by
      funext m
      simp only [Run.query, Value.key, htext]
      rfl
    simp only [CollectionLiteral.evalEntries, hev hk, hev hv, hquery, pure_bind, hd' ev f hev]

theorem exists_stands {c : CollectionLiteral} (h : c.isConstant = true) (hs : ∀ n ∈ c.nodes, n.Sound) :
    ∃ t : Template, t.IsPlain ∧ t.Stands c := by
  cases c with
  | list items =>
    obtain ⟨vs, hplain, hvs⟩ := exists_evalAll h hs
    refine ⟨.list vs.toArray, hplain, fun ev f hev => ?_⟩
    simp only [CollectionLiteral.build, hvs ev f hev, pure_bind]
    rfl
  | array items =>
    obtain ⟨vs, hplain, hvs⟩ := exists_evalAll h hs
    refine ⟨.array vs.toArray, hplain, fun ev f hev => ?_⟩
    simp only [CollectionLiteral.build, hvs ev f hev, pure_bind]
    rfl
  | map entries =>
    have hparts : ∀ e ∈ entries, ∀ n ∈ [e.1, e.2], n.Sound := fun e he n hn => hs n (List.mem_flatMap.mpr ⟨e, he, hn⟩)
    obtain ⟨d, hplain, hd⟩ := exists_evalEntries h (d := .empty)
      (fun e he => ⟨hparts e he _ (by simp), hparts e he _ (by simp)⟩) fun e he => nomatch he
    refine ⟨.map d, hplain, fun ev f hev => ?_⟩
    simp only [CollectionLiteral.build, hd ev f hev, pure_bind]
    rfl

end Template

/-! ## Changes that keep memory faithful -/

theorem Node.site?_of_target {n : Node} {p : Path} {site : SiteId} (h : n.target? = some (.path p site)) :
    n.site? = some site := by
  unfold target? at h
  split at h
  next hk => cases h; simp [site?, hk]
  next hk => cases h; simp [site?, hk]
  next => cases h

theorem Sparse.of_get?_set {α : Type} {t : Sparse α} {i j : Nat} {a b : α} (h : (t.set i a).get? j = some b) :
    t.get? j = some b ∨ i = j ∧ a = b := by
  rw [Sparse.get?_set] at h
  split at h
  next hij => exact .inr ⟨hij, Option.some.inj h⟩
  next => exact .inl h

theorem Sparse.of_get?_setNew {α : Type} {t : Sparse α} {i j : Nat} {a b : α} (h : (t.setNew i a).get? j = some b) :
    t.get? j = some b ∨ i = j ∧ a = b := by
  unfold setNew at h
  split at h
  next => exact .inl h
  next => exact of_get?_set h

theorem UnitRegistry.mem_of_find? {U : Type} {r : UnitRegistry U} {k : UnitKey} {u : U} (h : r.find? k = some u) :
    (k, u) ∈ r.units := by
  obtain ⟨e, he, rfl⟩ := Option.map_eq_some_iff.mp h
  have hkey : e.1 = k := by simpa using List.find?_some he
  exact hkey ▸ List.mem_of_find?_eq_some he

theorem UnitRegistry.of_provide {U : Type} {r : UnitRegistry U} {k : UnitKey} {new : Unit → U} :
    (∀ {u g}, (r.provide k new).1 = some (u, g) → (k, u) ∈ r.units ∨ u = new ()) ∧
      ∀ e ∈ (r.provide k new).2.units, e ∈ r.units ∨ e = (k, new ()) := by
  unfold provide lookup
  cases hfind : r.find? k with
  | some found =>
    refine ⟨fun h => ?_, fun e he => .inl he⟩
    cases h
    exact .inl (mem_of_find? hfind)
  | none =>
    simp only [register, hfind]
    by_cases hfull : r.ceiling < r.live + 1
    · simp only [if_pos hfull]
      exact ⟨fun h => (by cases h), nofun⟩
    · simp only [if_neg hfull]
      refine ⟨fun h => ?_, fun e he => ?_⟩
      · cases h
        exact .inr rfl
      · exact (List.mem_cons.mp he).symm

namespace Traced

variable {paths : List Path} {a : Accelerator} {p : Path} {cell : CellId} {c : ReadCell} {site : SiteId} {n : Node}

theorem fresh (ceiling : Nat) : Traced classes trees [] (.fresh ceiling) where
  size := rfl
  learned := nofun
  cells := nofun
  units := nofun
  reads := fun hr => by simp [Accelerator.fresh] at hr
  writes := fun hw => by simp [Accelerator.fresh] at hw

variable (h : Traced classes trees paths a)
include h

theorem subset (hs : trees ⊆ trees') : Traced classes trees' paths a where
  size := h.size
  learned := fun p hp => (h.learned p hp).mono hs
  cells := fun hp hget hunit => (h.cells hp hget hunit).mono hs
  units := fun hu => (h.units hu).mono hs
  reads := fun hr => by
    obtain ⟨n, p, hn, hrest⟩ := h.reads hr
    exact ⟨n, p, hn.mono hs, hrest⟩
  writes := fun hw => by
    obtain ⟨n, p, hn, hrest⟩ := h.writes hw
    exact ⟨n, p, hn.mono hs, hrest⟩

/-! ### Cells -/

theorem touched {Good : SpecializedUnit → Prop} {a' : Accelerator} (hp : paths[cell]? = some p)
    (ht : a.Touched cell Good a') (hgood : ∀ u, Good u → u.MadeFor classes trees p.text) :
    Traced classes trees paths a' := by
  rw [ht.rest]
  refine { h with size := ht.size.trans h.size, cells := fun {i q c u} hq hget hunit => ?_ }
  by_cases hi : i = cell
  · subst hi
    cases hp.symm.trans hq
    obtain ⟨c', hget, hunit⟩ | hu := ht.unit hget hunit
    · exact h.cells hp hget hunit
    · exact hgood u hu
  · exact h.cells hq ((ht.others hi).symm.trans hget) hunit

theorem alloc (hp : p.Learned trees) (hc : c.unit? = none) (ticks : Nat) :
    Traced classes trees (paths ++ [p]) { a with cells := (a.cells.alloc c).2, ticks } where
  size := by rw [Table.size_alloc, h.size, List.length_append, List.length_singleton]
  learned := fun q hq => by
    rcases List.mem_append.mp hq with hq | hq
    · exact h.learned q hq
    · exact List.mem_singleton.mp hq ▸ hp
  cells := fun {i q d u} hq hget hunit => by
    rw [Table.get?_alloc] at hget
    split at hget
    next => cases hget; rw [hc] at hunit; cases hunit
    next hne =>
      have hlt : i < paths.length := by
        have hle := (List.getElem?_eq_some_iff.mp hq).1
        have hne : i ≠ paths.length := h.size ▸ hne
        rw [List.length_append, List.length_singleton] at hle
        exact Nat.lt_of_le_of_ne (Nat.le_of_lt_succ hle) hne
      rw [List.getElem?_append_left hlt] at hq
      exact h.cells hq hget hunit
  units := h.units
  reads := fun hr => by
    obtain ⟨n, q, hn, hk, hq⟩ := h.reads hr
    exact ⟨n, q, hn, hk, getElem?_of_grown hq (List.prefix_append ..)⟩
  writes := fun hw => by
    obtain ⟨n, q, hn, ht, hq⟩ := h.writes hw
    exact ⟨n, q, hn, ht, hq.mono (List.prefix_append ..)⟩

theorem getElem?_alloc : (paths ++ [p])[a.cells.size]? = some p := by
  rw [h.size, List.getElem?_concat_length]

/-! ### Units -/

theorem withRegistry {r : UnitRegistry SpecializedUnit} (hr : ∀ e ∈ r.units, e ∈ a.registry.units) :
    Traced classes trees paths { a with registry := r } := { h with units := fun hu => h.units (hr _ hu) }

/-- A unit for what a walk along a path has met, made now or found under its text. -/
theorem provide (hp : p.Learned trees) (met : List Observed) (v : Value) :
    let key := SpecializedUnit.keyOf p met v
    let r := a.registry.provide key fun _ => SpecializedUnit.generate classes key p met v
    Traced classes trees paths { a with registry := r.2 } ∧
      ∀ u g, r.1 = some (u, g) → u.MadeFor classes trees p.text := by
  intro key r
  have made : (SpecializedUnit.generate classes key p met v).MadeFor classes trees p.text :=
    ⟨key, p, met, v, hp, rfl, rfl⟩
  constructor
  · refine { h with units := fun hunit => ?_ }
    rcases UnitRegistry.of_provide.2 _ hunit with hunit | hunit
    · exact h.units hunit
    · cases hunit
      exact made
  · intro u g hfound
    rcases UnitRegistry.of_provide.1 hfound with hunit | rfl
    · exact h.units hunit
    · exact made

/-! ### Sites -/

theorem noteRead (hn : Node.Among trees n) (hk : n.kind = .property p site) (hp : paths[cell]? = some p) :
    Traced classes trees paths { a with reads := a.reads.setNew site cell } := by
  refine { h with reads := fun hr => ?_ }
  rcases Sparse.of_get?_setNew hr with hr | ⟨rfl, rfl⟩
  · exact h.reads hr
  · exact ⟨n, p, hn, hk, hp⟩

theorem noteWrite {container : Option CellId} (hn : Node.Among trees n) (ht : n.target? = some (.path p site))
    (hp : p.HasContainer paths container) :
    Traced classes trees paths { a with writes := a.writes.setNew site container } := by
  refine { h with writes := fun hw => ?_ }
  rcases Sparse.of_get?_setNew hw with hw | ⟨rfl, rfl⟩
  · exact h.writes hw
  · exact ⟨n, p, hn, ht, hp⟩

/-! ## What is found at a site

The number of a site tells which node it belongs to. -/

variable {lo hi : SiteId} (hg : Grown lo hi trees) (hn : Node.Among trees n)
include hg hn

theorem getElem?_of_read (hk : n.kind = .property p site) (hr : a.reads.get? site = some cell) : paths[cell]? = some p := by
  obtain ⟨n', p', hn', hk', hp'⟩ := h.reads hr
  obtain rfl := hg.unique n n' hn hn' site (by simp [Node.site?, hk]) (by simp [Node.site?, hk'])
  rw [hk] at hk'
  cases hk'
  exact hp'

theorem hasContainer_of_write {container : Option CellId} (ht : n.target? = some (.path p site))
    (hw : a.writes.get? site = some container) : p.HasContainer paths container := by
  obtain ⟨n', p', hn', ht', hp'⟩ := h.writes hw
  obtain rfl := hg.unique n n' hn hn' site (Node.site?_of_target ht) (Node.site?_of_target ht')
  rw [ht] at ht'
  cases ht'
  exact hp'

end Traced

namespace Faithful

variable {paths : List Path} {a : Accelerator} {p : Path} {cell : CellId} {c : ReadCell} {site : SiteId} {n : Node}

theorem fresh (ceiling : Nat) : Faithful classes trees [] (.fresh ceiling) where
  toTraced := .fresh ceiling
  collections := fun hc => by simp [Accelerator.fresh] at hc
  creations := fun hc => by simp [Accelerator.fresh] at hc

variable (h : Faithful classes trees paths a)
include h

theorem subset (hs : trees ⊆ trees') : Faithful classes trees' paths a where
  toTraced := h.toTraced.subset hs
  collections := fun hc => by
    obtain ⟨n, c, hn, hrest⟩ := h.collections hc
    exact ⟨n, c, hn.mono hs, hrest⟩
  creations := fun hc => by
    obtain ⟨n, c, hn, hrest⟩ := h.creations hc
    exact ⟨n, c, hn.mono hs, hrest⟩

theorem touched {Good : SpecializedUnit → Prop} {a' : Accelerator} (hp : paths[cell]? = some p)
    (ht : a.Touched cell Good a') (hgood : ∀ u, Good u → u.MadeFor classes trees p.text) :
    Faithful classes trees paths a' := by
  have htraced := h.toTraced.touched hp ht hgood
  rw [ht.rest] at htraced ⊢
  exact { h with toTraced := htraced }

theorem withShapes (shapes : Sparse IterShape) : Faithful classes trees paths { a with shapes } := { h with }

theorem withRegistry {r : UnitRegistry SpecializedUnit} (hr : ∀ e ∈ r.units, e ∈ a.registry.units) :
    Faithful classes trees paths { a with registry := r } := { h with toTraced := h.toTraced.withRegistry hr }

theorem noteTemplate {literal : CollectionLiteral} {template : Option Template} (hn : Node.Among trees n)
    (hk : n.kind = .collection literal site) (ht : ∀ t, template = some t → t.Stands literal) :
    Faithful classes trees paths { a with collections := a.collections.setNew site template } := by
  refine { h with collections := fun hc => ?_ }
  rcases Sparse.of_get?_setNew hc with hc | ⟨rfl, heq⟩
  · exact h.collections hc
  · exact ⟨n, literal, hn, hk, ht _ heq⟩

/-- What a site remembers of a choice, whether it has remembered one before or not. -/
theorem noteChoice {creation : Creation} {s : CreationSite} {creations : Sparse CreationSite} (hn : Node.Among trees n)
    (hk : n.kind = .newObject creation site)
    (hs : ∀ types target, s = .cached (some (types, target)) → creation.Chosen classes types target)
    (hc : ∀ i b, creations.get? i = some b → a.creations.get? i = some b ∨ site = i ∧ s = b) :
    Faithful classes trees paths { a with creations } := by
  refine { h with creations := fun hget => ?_ }
  rcases hc _ _ hget with hget | ⟨rfl, heq⟩
  · exact h.creations hget
  · exact ⟨n, creation, hn, hk, hs _ _ heq⟩

variable {lo hi : SiteId} (hg : Grown lo hi trees) (hn : Node.Among trees n)
include hg hn

theorem stands_of_template {literal : CollectionLiteral} {t : Template} (hk : n.kind = .collection literal site)
    (hc : a.collections.get? site = some (some t)) : t.Stands literal := by
  obtain ⟨n', c', hn', hk', hc'⟩ := h.collections hc
  obtain rfl := hg.unique n n' hn hn' site (by simp [Node.site?, hk]) (by simp [Node.site?, hk'])
  rw [hk] at hk'
  cases hk'
  exact hc'

theorem chosen_of_choice {creation : Creation} {types : List Ty} {target : NewTarget}
    (hk : n.kind = .newObject creation site) (hc : a.creations.get? site = some (.cached (some (types, target)))) :
    creation.Chosen classes types target := by
  obtain ⟨n', c', hn', hk', hc'⟩ := h.creations hc
  obtain rfl := hg.unique n n' hn hn' site (by simp [Node.site?, hk]) (by simp [Node.site?, hk'])
  rw [hk] at hk'
  cases hk'
  exact hc'

end Faithful

end PathScript
