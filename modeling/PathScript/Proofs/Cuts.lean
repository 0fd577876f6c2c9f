import PathScript.Proofs.PathText

/-! # Cuts of paths

A path keeps where each of its segments ends in its text, so that its first
segments can be taken with their text. In the source it may have blanks and
comments within, and behind `this` it has another text than the source; the cuts
go with its text in both cases. -/

namespace PathScript

/-! ## First parts of texts -/

namespace Text

theorem takeBytes_takeBytes {a b : Nat} (h : a ≤ b) (cs : List Char) : takeBytes a (takeBytes b cs) = takeBytes a cs := by
  induction cs generalizing a b with
  | nil => rfl
  | cons c rest ih =>
    by_cases ha : c.utf8Size ≤ a
    · rw [takeBytes, if_pos (Nat.le_trans ha h), takeBytes, takeBytes, if_pos ha, if_pos ha, ih (by omega)]
    · rw [takeBytes.eq_2 a, if_neg ha, takeBytes]
      split
      · rw [takeBytes, if_neg ha]
      · rfl

theorem isBoundary_takeBytes {a b : Nat} (h : a ≤ b) {cs : List Char} (ha : isBoundary a cs = true) :
    isBoundary a (takeBytes b cs) = true := by
  fun_induction isBoundary a cs generalizing b with
  | case1 cs => cases takeBytes b cs <;> rfl
  | case2 => cases ha
  | case3 n c rest ih =>
    obtain ⟨hle, hrest⟩ := (Bool.and_eq_true _ _).mp ha
    have hle := of_decide_eq_true hle
    rw [takeBytes, if_pos (Nat.le_trans hle h), isBoundary, decide_eq_true hle, ih (by omega) hrest, Bool.true_and]

theorem add_byteLength_of_slice? {cs text : List Char} {start stop : Nat} (h : slice? cs start stop = some text) :
    start + byteLength text = stop := by
  have htext := slice_of_slice? h
  unfold slice? at h
  split at h
  next hends =>
    simp only [Bool.and_eq_true, decide_eq_true_eq] at hends
    obtain ⟨⟨hle, hstart⟩, hstop⟩ := hends
    obtain ⟨before, rest, rfl, rfl⟩ := isPlace_iff.mpr hstart
    obtain ⟨n, rfl⟩ : ∃ n, stop = n + byteLength before := ⟨stop - byteLength before, by omega⟩
    rw [isBoundary_add] at hstop
    obtain ⟨middle, behind, rfl, rfl⟩ := isPlace_iff.mpr hstop
    rw [htext, slice, Nat.add_sub_cancel, dropBytes_append, takeBytes_append, Nat.add_comm]
  next => cases h

end Text

namespace Path

variable {p q : Path} {source : List Char} {i j : Nat}

/-! ## Cuts -/

theorem take_eq_mk (p : Path) (n : Nat) : p.take n = ⟨(p.take n).text,
    ⟨p.span.start, p.span.start + p.cut (min n p.segments.length)⟩, p.segments.take (min n p.segments.length),
    p.cuts.take (min n p.segments.length), p.line⟩ := rfl

theorem cut_succ (hi : i < p.cuts.length) : p.cut (i + 1) = p.cuts[i] := by
  rw [cut, if_neg (Nat.succ_ne_zero i), Nat.add_sub_cancel, List.getElem?_eq_getElem hi, Option.getD_some]

namespace WellCut

theorem cut_le (h : p.WellCut) (hij : i ≤ j) (hj : j ≤ p.segments.length) : p.cut i ≤ p.cut j := by
  rw [← h.length] at hj
  cases i with
  | zero => exact Nat.zero_le _
  | succ i =>
    obtain ⟨k, rfl⟩ : ∃ k, j = k + 1 := ⟨j - 1, by omega⟩
    rw [cut_succ (Nat.lt_of_lt_of_le hij hj), cut_succ hj]
    rcases Nat.eq_or_lt_of_le (Nat.le_of_succ_le_succ hij) with rfl | hlt
    · exact Nat.le_refl _
    · exact Nat.le_of_lt (List.pairwise_iff_getElem.mp h.increasing i k (by omega) hj hlt)

theorem isBoundary_cut (h : p.WellCut) (hi : i ≤ p.segments.length) : Text.isBoundary (p.cut i) p.text.toList = true := by
  cases i with
  | zero => simp [cut, Text.isBoundary]
  | succ i =>
    rw [cut_succ (h.length ▸ hi)]
    exact h.boundary _ (List.getElem_mem _)

theorem cut_length (h : p.WellCut) : p.cut p.segments.length = Text.byteLength p.text.toList := by
  have hlast := h.last
  rw [List.getLast?_eq_getElem?, h.length] at hlast
  rw [cut, hlast, if_neg, Option.getD_some]
  intro hzero
  rw [List.getElem?_eq_none (by simp only [h.length, hzero, Nat.zero_le])] at hlast
  cases hlast

theorem toList_take (h : p.WellCut) (n : Nat) :
    (p.take n).text.toList = Text.takeBytes (p.cut (min n p.segments.length)) p.text.toList := by
  rw [text_take, if_pos (h.isBoundary_cut (Nat.min_le_right ..)), String.toList_ofList]

theorem cut_take (h : p.WellCut) {n : Nat} (hi : i ≤ min n p.segments.length) : (p.take n).cut i = p.cut i := by
  cases i with
  | zero => rfl
  | succ i =>
    have hi' : i < (p.take n).cuts.length := by
      rw [take, List.length_take, h.length]
      omega
    rw [cut_succ hi', cut_succ (by rw [h.length]; omega)]
    exact List.getElem_take

theorem take_take (h : p.WellCut) (m n : Nat) : (p.take n).take m = p.take (min m n) := by
  have hlength : (p.take n).segments.length = min n p.segments.length := by simp [take]
  obtain ⟨k, hk, hle⟩ : ∃ k, min (min m n) p.segments.length = k ∧ k ≤ min n p.segments.length := ⟨_, rfl, by omega⟩
  have hk' : min m (min n p.segments.length) = k := by omega
  have hcut := h.cut_le hle (Nat.min_le_right ..)
  have hboundary : Text.isBoundary (p.cut k) p.text.toList = true := h.isBoundary_cut (by omega)
  have htext : ((p.take n).take m).text = (p.take (min m n)).text := by
    rw [text_take (p.take n), hlength, hk', h.cut_take hle, h.toList_take,
      if_pos (Text.isBoundary_takeBytes hcut hboundary), Text.takeBytes_takeBytes hcut, text_take p, hk, if_pos hboundary]
  rw [take_eq_mk (p.take n), take_eq_mk p (min m n), htext, hlength, hk', hk, h.cut_take hle]
  simp only [take, List.take_take, Nat.min_eq_left hle]

theorem rebased (h : p.WellCut) : p.rebased.WellCut where
  length := by simp [Path.rebased, h.length]
  increasing := by
    refine List.pairwise_cons.mpr ⟨fun c hc => ?_, List.pairwise_map.mpr (h.increasing.imp (by omega))⟩
    obtain ⟨c, -, rfl⟩ := List.mem_map.mp hc
    omega
  boundary := by
    rw [toList_rebased]
    refine List.forall_mem_cons.mpr ⟨?_, fun c hc => ?_⟩
    · exact Text.isBoundary_append "this".toList ('.' :: p.text.toList)
    · obtain ⟨c, hmem, rfl⟩ := List.mem_map.mp hc
      exact (Text.isBoundary_add "this.".toList p.text.toList c).trans (h.boundary c hmem)
  last := by
    rw [toList_rebased, Text.byteLength_append, Path.rebased, List.getLast?_cons, List.getLast?_map, h.last]
    exact congrArg some (Nat.add_comm _ 5)

end WellCut

/-! ## Paths in the source -/

/-- A path put behind `this`: it stands in the source without it, and does not start with it there. -/
def RebasedIn (source : List Char) (p : Path) : Prop :=
  ∃ q : Path, Text.slice? source q.span.start q.span.stop = some q.text.toList ∧ q.shape.head? ≠ some .this ∧ p = q.rebased

namespace Quotes

variable (h : p.Quotes source)
include h

theorem take_of_length_le {n : Nat} (hn : p.segments.length ≤ n) : p.take n = p := by
  have hcut := h.spelled.wellCut.cut_length
  have htext : (p.take n).text = p.text := by
    rw [← String.toList_inj, h.spelled.wellCut.toList_take, Nat.min_eq_right hn, hcut]
    simpa using Text.takeBytes_append p.text.toList []
  rw [take_eq_mk, htext, Nat.min_eq_right hn, hcut, Text.add_byteLength_of_slice? h.text, List.take_length,
    ← h.spelled.wellCut.length, List.take_length]
  cases p
  rfl

/-- A path that stands in the source is not one that was put behind `this`. -/
theorem not_rebasedIn : ¬ p.RebasedIn source := by
  rintro ⟨q, htext, -, rfl⟩
  have hlength := congrArg List.length (Option.some.inj (htext.symm.trans h.text))
  rw [toList_rebased, List.length_append] at hlength
  exact absurd hlength (by simp)

end Quotes

/-- What holds of a path that was compiled from a source. Its cuts go with its segments and its text. It is what the
source has in its place, all of it, unless it was put behind `this`. The first of its first segments are its first
segments. -/
structure FormedIn (source : List Char) (p : Path) : Prop where
  wellCut : p.WellCut
  stands : ¬ p.RebasedIn source → Text.slice? source p.span.start p.span.stop = some p.text.toList ∧
    ∀ n, p.segments.length ≤ n → p.take n = p
  first : ∀ m n, (p.take n).take m = p.take (min m n)

theorem Quotes.formedIn (h : p.Quotes source) : p.FormedIn source :=
  ⟨h.spelled.wellCut, fun _ => ⟨h.text, fun _ => h.take_of_length_le⟩, h.spelled.wellCut.take_take⟩

theorem TargetedIn.formedIn (h : p.TargetedIn (Quotes source)) : p.FormedIn source := by
  cases h with
  | read h => exact h.formedIn
  | @rebased q s steps h hs hne =>
    have hcut := h.spelled.wellCut.rebased
    refine ⟨hcut, fun hnot => absurd ⟨q, h.text, ?_, rfl⟩ hnot, hcut.take_take⟩
    rw [hs, List.head?_cons]
    exact fun heq => hne (Option.some.inj heq)

end Path

/-- What holds of the path that a node reads or writes, if it has one. Only what is assigned to can be behind `this`
without being there in the source. -/
def Node.PathFormedIn (source : List Char) (n : Node) : Prop :=
  ∀ p, n.path? = some p → p.FormedIn source ∧
    (p.RebasedIn source → ∃ site op value ty register, n.kind = .assignment (.path p site) op value ty register)

theorem Node.SoundIn.pathFormedIn {source : List Char} {n : Node} (h : n.SoundIn (Path.Quotes source)) :
    n.PathFormedIn source := by
  intro p hp
  refine ⟨(h.targeted hp).formedIn, fun hrebased => ?_⟩
  unfold path? at hp
  unfold SoundIn at h
  cases hkind : n.kind with
  | property path site =>
    rw [hkind] at h hp
    cases hp
    exact absurd hrebased h.not_rebasedIn
  | assignment target op value ty register =>
    rw [hkind] at hp
    cases target with
    | name name => cases hp
    | path path site => cases hp; exact ⟨site, op, value, ty, register, rfl⟩
  | increment target delta before =>
    rw [hkind] at h hp
    cases target with
    | name name => cases hp
    | path path site => cases hp; exact absurd hrebased h.not_rebasedIn
  | _ => rw [hkind] at hp; cases hp

variable {env : Compile.Env} {site function : Nat}

/-- A path that was compiled by itself stands in its source, and the nodes in it are sound. -/
theorem parts_of_compilePath {c : Compiled Path} (h : compilePath env site function = .ok c) :
    c.tree.Quotes env.source ∧ ∀ n, Node.Among c.tree.nodes n → env.Sound n := by
  obtain ⟨st, hheld, ⟨hquotes, -, hw⟩, -⟩ := Compile.builds_assignablePath.of_run h
  exact ⟨hquotes, hheld.grown.sound hw⟩

/-- The paths of a compiled program, those in other paths and in functions included, and a path that is compiled by
itself with those in it, are well formed: there are as many cuts as segments, and they are increasing, between characters
and end with the text. A path that was not put behind `this` is what the source has in its place, and so are all its
segments. The first of the first segments of any of them are its first segments. -/
theorem compiled_paths_well_formed (env : Compile.Env) (site function : Nat) :
    (∀ c, compileProgram env site function = .ok c → ∀ n : Node, n.Occurs c.tree → n.PathFormedIn env.source) ∧
    ∀ c, compilePath env site function = .ok c → c.tree.FormedIn env.source ∧ ¬ c.tree.RebasedIn env.source ∧
      ∀ n, Node.Among c.tree.nodes n → n.PathFormedIn env.source := by
  refine ⟨fun c h n hn => (node_of_compileProgram h hn).2.pathFormedIn, fun c h => ?_⟩
  obtain ⟨hquotes, hsound⟩ := parts_of_compilePath h
  exact ⟨hquotes.formedIn, hquotes.not_rebasedIn, fun n hn => (hsound n hn).pathFormedIn⟩

/-- Blanks, a comment and characters of several bytes: in a path that is put behind `this`, in one that is read, and in one
that is compiled by itself. -/
theorem compiled_paths_well_formed_behind_this :
    let env : Compile.Env := ⟨"with (m) \x7b ö .k[ 'é' ] = n./*€*/x \x7d".toList, .standard, .standard, .standard⟩
    let env' : Compile.Env := ⟨" a. ü[0] ".toList, .standard, .standard, .standard⟩
    (∃ (c : Compiled Node) (n m : Node) (p q : Path), compileProgram env 0 0 = .ok c ∧ n.Occurs c.tree ∧ m.Occurs c.tree ∧
      n.path? = some p ∧ p.text = "this.ö .k[ 'é' ]" ∧ p.cuts = [4, 7, 10, 18] ∧ p.WellCut ∧ (p.take 3).take 2 = p.take 2 ∧
      m.path? = some q ∧ q.text = "n./*€*/x" ∧ q.cuts = [1, 10] ∧ q.WellCut ∧ q.take 5 = q) ∧
    ∃ c : Compiled Path, compilePath env' 0 0 = .ok c ∧ c.tree.text = "a. ü[0]" ∧ c.tree.cuts = [1, 5, 8] ∧
      c.tree.take 3 = c.tree := by
  intro env env'
  let parts (c : Compiled Node) : List Node := c.tree.children.flatMap Node.children
  have hprogram : (compileProgram env 0 0).toOption.any (fun c => decide (∃ n ∈ parts c, ∃ p ∈ n.path?, ∃ m ∈ n.children,
      ∃ q ∈ m.path?, p.text = "this.ö .k[ 'é' ]" ∧ p.cuts = [4, 7, 10, 18] ∧ m.target?.isNone ∧ q.text = "n./*€*/x" ∧
        q.cuts = [1, 10])) = true := by decide +kernel
  have hpath : (compilePath env' 0 0).toOption.any (fun c => decide (c.tree.text = "a. ü[0]" ∧ c.tree.cuts = [1, 5, 8] ∧
      c.tree.segments.length = 3)) = true := by decide +kernel
  constructor
  · obtain ⟨c, hcompiled, hprogram⟩ := exists_ok_of_any hprogram
    obtain ⟨n, hn, p, hp, m, hm, q, hq, htext, hcuts, htarget, htext', hcuts'⟩ := of_decide_eq_true hprogram
    obtain ⟨k, hk, hn⟩ := List.mem_flatMap.mp hn
    have hoccurs : n.Occurs c.tree := .under hk (.under hn (.here n))
    obtain ⟨hformed, -⟩ := (compiled_paths_well_formed env 0 0).1 c hcompiled n hoccurs p hp
    obtain ⟨hformed', hassigned⟩ := (compiled_paths_well_formed env 0 0).1 c hcompiled m (hoccurs.child hm) q hq
    have hread : ¬ q.RebasedIn env.source := by
      intro hrebased
      obtain ⟨site, op, value, ty, register, hkind⟩ := hassigned hrebased
      simp [Node.target?, hkind] at htarget
    have hlength : q.segments.length ≤ 5 := by rw [← hformed'.wellCut.length, hcuts']; decide
    exact ⟨c, n, m, p, q, hcompiled, hoccurs, hoccurs.child hm, hp, htext, hcuts, hformed.wellCut, hformed.first 2 3, hq, htext',
      hcuts', hformed'.wellCut, (hformed'.stands hread).2 5 hlength⟩
  · obtain ⟨c, hcompiled, hpath⟩ := exists_ok_of_any hpath
    obtain ⟨htext, hcuts, hlength⟩ := of_decide_eq_true hpath
    obtain ⟨hformed, hread, -⟩ := (compiled_paths_well_formed env' 0 0).2 c hcompiled
    exact ⟨c, hcompiled, htext, hcuts, (hformed.stands hread).2 3 (Nat.le_of_eq hlength)⟩

end PathScript
