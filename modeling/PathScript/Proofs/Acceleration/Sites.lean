import PathScript.Proofs.Acceleration

/-! # Accelerated sites

One lemma for each kind of site. Where a site remembers something, that is used
in place of doing the same again; where it does not yet, what was done is noted.
In both cases the interpreted side does it from scratch. -/

namespace PathScript

/-! ## Paths and their containers -/

theorem Path.segments_container (p : Path) : (Access.container p).segments = p.segments.dropLast := by
  simp [Access.container, Path.take, Path.length, List.dropLast_eq_take]

namespace Walk

variable (ev : Evaluator) (f : Frame)

theorem along_append_value (p : Path) (first rest : List Segment) (receiver : Value) :
    (along ev f p (first ++ rest) receiver none >>= fun r => pure r.1) =
      (along ev f p first receiver none >>= fun a => along ev f p rest a.1 none >>= fun r => pure r.1) := by
  induction first generalizing receiver with
  | nil => simp only [List.nil_append, along, pure_bind]
  | cons s first ih =>
    simp only [List.cons_append, along, bind_assoc, pure_bind]
    exact congrArg _ (funext fun r => ih r.1)

/-- A path is read by reading its container and then its last segment. -/
theorem read_eq_readLast (p : Path) : read ev f p =
    (along ev f p (Access.container p).segments .null none >>= fun a => readLast ev f p a.1) := by
  rw [p.segments_container]
  unfold read readLast
  cases hlast : p.segments.getLast? with
  | none =>
    rw [List.getLast?_eq_none_iff.mp hlast]
    rfl
  | some last =>
    have hsegments : p.segments = p.segments.dropLast ++ [last] := (List.dropLast_append_getLast? last hlast).symm
    conv_lhs => rw [hsegments]
    rw [along_append_value]
    simp only [along, bind_assoc, pure_bind]

end Walk

namespace Acceleration

open Lockstep Creation

variable {world : World} {trees : List Node} {start : Accelerator} {paths : List Path} {α : Type}
  {ev ev' : Evaluator} {f f' : Frame} {n : Node} {p : Path} {site : SiteId}

/-- At a site accelerated evaluation looks at what is remembered, and interpreted evaluation does not. -/
theorem sim_site {k : Accelerator → EvalM α} {x y z : EvalM α} (hf : Frame.Beside world f f')
    (hk : ∀ more a, paths <+: more → Faithful world.classes trees more a →
      (acceleration world trees start).Sim more (k a) y) :
    (acceleration world trees start).Sim paths (if f.isInterpreted = true then x else EvalM.accel >>= k)
      (if f'.isInterpreted = true then y else z) := by
  have hleft : ¬ f.isInterpreted = true := by rw [Frame.isInterpreted, hf.mode]; decide
  have hright : f'.isInterpreted = true := by rw [hf.eq]; rfl
  rw [if_neg hleft, if_pos hright]
  exact sim_look hk

/-- The container of a path that is updated is at the place of the path, but for its text. -/
theorem samePlace_container (hn : Node.Among trees n) (hu : n.updated? = some (.path p site)) :
    (acceleration world trees start).SamePlace (Access.container p).segments (Access.container p) p :=
  ⟨rfl, rfl, fun _ hindex f => .update hn hu hindex f.runtime.sourceName⟩

section Paths

variable {lo hi : SiteId} (hg : Grown lo hi trees) (hu : Unambiguous trees)
  (hL : (acceleration world trees start).Lawful) (hev : (acceleration world trees start).Evaluators ev ev')
  (hf : Frame.Beside world f f') (hn : Node.Among trees n)
include hg hu hL hev hf hn

theorem sim_readPath (hk : n.kind = .property p site) :
    (acceleration world trees start).Sim paths (Access.readPath ev f p site) (Access.readPath ev' f' p site) := by
  have hs : ∀ m ∈ p.nodes, Node.Among trees m := fun m hm => hL.inside_own hn (by simpa [Node.own, Node.children, hk] using hm)
  have read : ∀ {paths : List Path} {cell : CellId}, paths[cell]? = some p →
      (acceleration world trees start).Sim paths (Access.read ev f p cell) (Walk.read ev' f' p) := fun hcell =>
    sim_read hg hu hL hev hf hs (.refl _ p) hcell
  unfold Access.readPath
  refine sim_site hf fun more a _ hfaithful => ?_
  cases hsite : a.reads.get? site with
  | some cell => exact read (hfaithful.toTraced.getElem?_of_read hg hn hk hsite)
  | none =>
    refine sim_newCell (.read hn hk) _ fun next cell _ hcell => sim_noting (read hcell) fun _ last b hle hb => ?_
    exact { hb with toTraced := hb.toTraced.noteRead hn hk (getElem?_of_grown hcell hle) }

theorem sim_writePath (ht : n.target? = some (.path p site)) (v : Value) :
    (acceleration world trees start).Sim paths (Access.writePath ev f p site v) (Access.writePath ev' f' p site v) := by
  have hs : ∀ m ∈ p.nodes, Node.Among trees m := fun m hm => hL.inside_own hn (Node.mem_own_of_target ht hm)
  have write : ∀ {paths : List Path} {container : Option CellId}, p.HasContainer paths container →
      (acceleration world trees start).Sim paths (Access.writeVia ev f p container v) (Access.writeFresh ev' f' p v) := by
    intro paths container hcontainer
    unfold Access.writeFresh
    cases hcontainer with
    | none short =>
      rw [if_neg (Nat.not_lt.mpr short)]
      exact hL.writeRoot hf v
    | some long cellOf =>
      rw [if_pos long]
      have hread := sim_read hg hu hL hev hf (fun m hm => hs m (Path.nodes_container hm)) (.refl _ _) cellOf
      exact hread.bind fun target => hL.writeLast hev hf hs target v
  unfold Access.writePath
  refine sim_site hf fun more a _ hfaithful => ?_
  cases hsite : a.writes.get? site with
  | some container => exact write (hfaithful.toTraced.hasContainer_of_write hg hn ht hsite)
  | none =>
    have noted : ∀ {paths : List Path} {container : Option CellId}, p.HasContainer paths container →
        (acceleration world trees start).Sim paths (Access.writeVia ev f p container v >>= fun stored =>
          EvalM.modifyAccel (fun a => { a with writes := a.writes.setNew site container }) >>= fun _ => pure stored)
          (Access.writeFresh ev' f' p v) := fun hcontainer =>
      sim_noting (write hcontainer) fun _ last b hle hb =>
        { hb with toTraced := hb.toTraced.noteWrite hn ht (hcontainer.mono hle) }
    unfold Access.newContainerCell
    by_cases hlong : 1 < p.length
    · simp only [gt_iff_lt, hlong, if_true, bind_assoc, pure_bind]
      exact sim_newCell (.container hn ht) _ fun next cell _ hcell => noted (.some hlong hcell)
    · simp only [gt_iff_lt, hlong, if_false, pure_bind]
      exact noted (.none (Nat.not_lt.mp hlong))

theorem sim_readForUpdate (hupdated : n.updated? = some (.path p site)) :
    (acceleration world trees start).Sim paths (Access.readForUpdate ev f p site) (Access.readForUpdate ev' f' p site) := by
  have ht := Node.target_of_updated hupdated
  have hs : ∀ m ∈ p.nodes, Node.Among trees m := fun m hm => hL.inside_own hn (Node.mem_own_of_target ht hm)
  unfold Access.readForUpdate
  refine sim_site hf fun more a _ hfaithful => ?_
  cases hsite : a.writes.get? site with
  | none => exact hL.walkRead hev hf hs
  | some container =>
    dsimp only
    rw [Walk.read_eq_readLast ev' f' p]
    cases hfaithful.toTraced.hasContainer_of_write hg hn ht hsite with
    | none short =>
      have hnil : (Access.container p).segments = [] := by
        have hzero : p.segments.length - 1 = 0 := Nat.sub_eq_zero_of_le short
        rw [p.segments_container, List.dropLast_eq_take, hzero, List.take_zero]
      rw [hnil]
      exact hL.readLast hev hf hs .null
    | some long cellOf =>
      have hread := sim_read hg hu hL hev hf (fun m hm => hs m (Path.nodes_container hm))
        (samePlace_container hn hupdated) cellOf
      have hboth := hread.bind fun r => hL.readLast hev hf hs r
      simp only [bind_assoc, pure_bind] at hboth
      exact hboth

end Paths

/-! ## New values -/

theorem get_bind_const (x : EvalM α) : (Run.get >>= fun _ => x) = x := rfl

/-- The template that is kept of a container that was just stamped out is the one it was stamped out of. -/
theorem noting_stamped (ev : Evaluator) (f : Frame) (mode : OptimizerMode) (literal : CollectionLiteral) (t : Template)
    (site : SiteId) : (Access.buildVia ev f literal (some t) >>= fun v => Run.get >>= fun m =>
      EvalM.modifyAccel (fun a => { a with
        collections := a.collections.setNew site (Access.templateOf mode literal m.store.heap v) }) >>= fun _ => pure v) =
    (Access.buildVia ev f literal (some t) >>= fun v => EvalM.modifyAccel (fun a => { a with
        collections := a.collections.setNew site (if mode != .safe && literal.isConstant then some t else none) }) >>=
      fun _ => pure v) := by
  funext m
  simp only [Access.buildVia, Run.bind_apply, EvalM.stepStore_apply, Run.get_apply, Access.templateOf, t.of?_stamp]

theorem sim_choose {k k' : NewTarget → EvalM α} {c : Creation} {types : List Ty} (hf : f.world = world)
    (hk : ∀ target, c.Chosen world.classes types target →
      (acceleration world trees start).Sim paths (k target) (k' target)) :
    (acceleration world trees start).Sim paths (choose f c types >>= k) (choose f c types >>= k') := by
  intro more hle m m' hm
  rw [Run.bind_apply, Run.bind_apply, choose_apply, choose_apply, hm.store]
  cases htarget : c.target f m.store types with
  | ok target => exact hk target (hf ▸ chosen_of_target htarget) more hle m m' hm
  | error fault => exact .error (List.prefix_refl _) (.same _) fun _ => hm

theorem sim_chooseBy {k : NewTarget × CreationSite → EvalM α} {k' : NewTarget → EvalM α} {c : Creation} {types : List Ty}
    {s : CreationSite} (hf : f.world = world) (hs : Remembers world.classes c s)
    (hk : ∀ target s, Remembers world.classes c s →
      (acceleration world trees start).Sim paths (k (target, s)) (k' target)) :
    (acceleration world trees start).Sim paths (chooseBy f c types s >>= k) (choose f c types >>= k') := by
  rw [chooseBy_eq (hf ▸ hs), bind_assoc]
  simp only [pure_bind]
  exact sim_choose hf fun target hchosen => hk target _ (.note hchosen s)

section Values

variable {lo hi : SiteId} (hg : Grown lo hi trees)
  (hL : (acceleration world trees start).Lawful) (hev : (acceleration world trees start).Evaluators ev ev')
  (hf : Frame.Beside world f f') (hn : Node.Among trees n)
include hL hev hf hn

include hg in
theorem sim_buildCollection {literal : CollectionLiteral} (hk : n.kind = .collection literal site) :
    (acceleration world trees start).Sim paths (Access.buildCollection ev f literal site)
      (Access.buildCollection ev' f' literal site) := by
  have hparts : ∀ m ∈ literal.nodes, Node.Among trees m := fun m hm =>
    hL.inside_own hn (by simpa [Node.own, Node.children, hk] using hm)
  have built : (acceleration world trees start).Sim paths (literal.build ev f) (literal.build ev' f') :=
    hL.build hev hf hparts
  unfold Access.buildCollection
  refine sim_site hf fun more a hle hfaithful => ?_
  cases hsite : a.collections.get? site with
  | some template =>
    cases template with
    | none => exact built.mono hle
    | some t =>
      dsimp only
      rw [hfaithful.stands_of_template hg hn hk hsite ev' f' hev.evaluates.2]
      exact hL.stepHeap t.stamp
  | none =>
    dsimp only
    by_cases hconstant : literal.isConstant = true
    · obtain ⟨t, -, ht⟩ := Template.exists_stands hconstant fun m hm => hg.sound m (hparts m hm)
      rw [ht ev f hev.evaluates.1, ht ev' f' hev.evaluates.2, noting_stamped]
      refine sim_noting (hL.stepHeap t.stamp) fun _ _ b _ hb => hb.noteTemplate hn hk fun t' ht' => ?_
      split at ht'
      · exact Option.some.inj ht' ▸ ht
      · cases ht'
    · have hnone : ∀ h v, Access.templateOf f.runtime.config.optimizer literal h v = none := fun h v => by
        simp [Access.templateOf, hconstant]
      simp only [hnone, get_bind_const]
      exact sim_noting (built.mono hle) fun _ _ b _ hb => hb.noteTemplate hn hk fun t ht => by cases ht

/-- A `new` expression by what its site remembers, after which the site remembers another choice. -/
theorem sim_createVia {c : Creation} {x : EvalM CreationSite} {note : CreationSite → Accelerator → Accelerator}
    (hk : n.kind = .newObject c site) (hx : ∀ {paths : List Path} {k : CreationSite → EvalM Value} {y : EvalM Value},
      (∀ more s, paths <+: more → Remembers world.classes c s → (acceleration world trees start).Sim more (k s) y) →
      (acceleration world trees start).Sim paths (x >>= k) y)
    (hnote : ∀ {s paths a}, Remembers world.classes c s → Faithful world.classes trees paths a →
      Faithful world.classes trees paths (note s a)) : (acceleration world trees start).Sim paths
      (Access.createVia ev f c x >>= fun r => EvalM.modifyAccel (note r.2) >>= fun _ => pure r.1)
      (c.construct ev' f' >>= fun r => pure r.1) := by
  have hc : ∀ m ∈ c.args, Node.Among trees m := fun m hm => hL.inside_own hn (by simpa [Node.own, Node.children, hk] using hm)
  have hconstruct : (c.construct ev' f' >>= fun r => pure r.1) = (Walk.evalAll ev' f' c.args >>= fun args =>
      choose f c (args.map Value.typeOf) >>= fun target => EvalM.onHeap (c.error f) (Creation.make f args target)) := by
    rw [hf.eq]
    simp only [Creation.construct, bind_assoc, pure_bind, bind_pure]
    rfl
  rw [createVia_eq, hconstruct]
  simp only [bind_assoc, pure_bind]
  refine (Lockstep.evalAll hev hf hc).bind fun args => hx fun more s _ hs => ?_
  refine sim_chooseBy hf.world hs fun target s' hs' => ?_
  exact sim_noting (hL.onHeap _ _) fun _ _ b _ hb => hnote hs' hb

include hg in
theorem sim_create {c : Creation} (hk : n.kind = .newObject c site) :
    (acceleration world trees start).Sim paths (Access.create ev f c site) (Access.create ev' f' c site) := by
  unfold Access.create
  refine sim_site hf fun more a _ _ => ?_
  cases a.creations.get? site with
  | some _ =>
    refine sim_createVia hL hev hf hn hk (fun hk' => ?_) fun hs hb =>
      hb.noteChoice hn hk hs fun _ _ => Sparse.of_get?_set
    rw [bind_assoc]
    refine sim_look fun next b hle hfaithful => ?_
    rw [pure_bind]
    refine hk' next _ hle fun types target hs => ?_
    cases hget : b.creations.get? site with
    | none => rw [hget] at hs; cases hs
    | some s =>
      rw [hget] at hs
      cases hs
      exact hfaithful.chosen_of_choice hg hn hk hget
  | none =>
    refine sim_createVia hL hev hf hn hk (fun hk' => ?_) fun hs hb =>
      hb.noteChoice hn hk hs fun _ _ => Sparse.of_get?_setNew
    rw [pure_bind]
    refine hk' _ _ (List.prefix_refl _) fun types target hs => ?_
    unfold Access.newCreation at hs
    split at hs
    · cases hs
    · cases hs

omit hL hev hn in
theorem sim_shapeOf (v : Value) :
    (acceleration world trees start).Sim paths (Eval.shapeOf f site v) (Eval.shapeOf f' site v) := by
  unfold Eval.shapeOf
  refine sim_site hf fun more a _ _ => ?_
  cases a.shapes.get? site with
  | some known =>
    dsimp only
    split
    next heq => rw [heq]; exact .pure _
    next => exact .pure _
  | none =>
    cases IterShape.of? v with
    | none => exact .pure _
    | some shape => exact sim_modifyAccel (fun _ _ _ h => h.withShapes _) (.pure _)

include hg in
theorem sim_regexMatch {subject pattern : Node} {compiled : Option Regex}
    (hk : n.kind = .regexMatch subject pattern compiled) :
    (acceleration world trees start).Sim paths (Eval.regexMatch ev f n.info subject pattern compiled)
      (Eval.regexMatch ev' f' n.info subject pattern compiled) := by
  have hc : ∀ m ∈ n.own, Node.Among trees m := fun m hm => hL.inside_own hn hm
  have hmode : f'.mode = .interpreted := by rw [hf.eq]; rfl
  unfold Eval.regexMatch
  rw [hf.mode, hmode]
  refine (hev.sim hf (hc subject (by simp [Node.own, Node.children, hk]))).bind fun v => .ite Iff.rfl (.pure _) ?_
  refine (hL.query fun h => v.text h).bind fun text => ?_
  cases compiled with
  | none => exact hL.matchPattern hev hf (hc pattern (by simp [Node.own, Node.children, hk])) n.info text
  | some r =>
    have hsound := hg.sound n hn
    unfold Node.Sound Node.SoundIn at hsound
    rw [hk] at hsound
    obtain ⟨source, hliteral, hwhole⟩ := hsound
    have hpattern : ev' f' pattern = pure (.str source) := by
      refine hev.evaluates.2 ?_
      unfold Node.literal? at hliteral
      split at hliteral
      next v hv => cases hliteral; exact hv
      next => cases hliteral
    have hmatch : Eval.matchPattern ev' f' n.info pattern text = pure (.bool (r.isMatch text)) := by
      funext m
      simp only [Eval.matchPattern, hpattern, pure_bind]
      have hquery : (Run.query fun m => (Value.str source).text m.store.heap : EvalM String) m = .ok source m := rfl
      rw [Run.bind_ok hquery, hwhole]
    dsimp only
    rw [hmatch]
    exact .pure _

end Values

/-! ## Programs -/

section Programs

variable {lo hi : SiteId} (hg : Grown lo hi trees) (hu : Unambiguous trees)
  (hfun : ∀ fn ∈ world.functions, Node.Among trees fn.body)
include hg hu hfun

theorem sites : (acceleration world trees start).Sites where
  readPath := fun hev hf hn hk => sim_readPath hg hu (sameStore hfun).lawful hev hf hn hk
  writePath := fun hev hf hn ht v => sim_writePath hg hu (sameStore hfun).lawful hev hf hn ht v
  readForUpdate := fun hev hf hn ht => sim_readForUpdate hg hu (sameStore hfun).lawful hev hf hn ht
  buildCollection := fun hev hf hn hk => sim_buildCollection hg (sameStore hfun).lawful hev hf hn hk
  create := fun hev hf hn hk => sim_create hg (sameStore hfun).lawful hev hf hn hk
  shapeOf := fun hf _ _ v => sim_shapeOf hf v
  regexMatch := fun hev hf hn hk => sim_regexMatch hg (sameStore hfun).lawful hev hf hn hk

theorem evaluators (fuel : Nat) : (acceleration world trees start).Evaluators (Eval.node fuel) (Eval.node fuel) :=
  (sameStore hfun).lawful.node (sites hg hu hfun) fuel

theorem sim_program (hf : Frame.Beside world f f') (hn : Node.Among trees n) (fuel : Nat) :
    (acceleration world trees start).Sim paths (Eval.program fuel f n) (Eval.program fuel f' n) :=
  (sameStore hfun).lawful.program (sites hg hu hfun) fuel hf hn

end Programs

end Acceleration

end PathScript
