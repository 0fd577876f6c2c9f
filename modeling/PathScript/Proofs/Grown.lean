import PathScript.Proofs.Layout
import PathScript.Proofs.Spelling

/-! # Trees as they are compiled

Every site is given a number that has not been used before, so the numbers in a
list of trees that were made one after another lie between two counts, and no
two nodes have the same number. Besides, some facts hold of every single node by
the way it was made. Both are closed under what compilation does: put trees side
by side, leave some out, and make a new node from them. -/

namespace PathScript

/-! ## Values of literals -/

/-- A value that is no reference into the heap. -/
def Value.isPlain : Value → Bool
  | list _ | array _ | map _ | object _ _ => false
  | _ => true

/-- The text of a value that is no reference does not depend on the heap. -/
theorem Value.text_plain {v : Value} (hv : v.isPlain = true) : ∃ s, ∀ h : Heap, v.text h = some s := by
  cases v with
  | list _ | array _ | map _ | object _ _ => cases hv
  | _ => exact ⟨_, fun _ => rfl⟩

/-! ## Single nodes -/

/-- A path that stands in a source and is spelled by its text there. -/
structure Path.Quotes (source : List Char) (p : Path) : Prop where
  spelled : p.Spelled
  text : Text.slice? source p.span.start p.span.stop = some p.text.toList

/-- A path that an assignment writes to: one that was read, or one put behind `this` that does not start with it. -/
inductive Path.TargetedIn (Read : Path → Prop) : Path → Prop where
  | read {p : Path} (h : Read p) : TargetedIn Read p
  | rebased {p : Path} {s : Segment.Shape} {steps : List Segment.Shape} (h : Read p) (hs : p.shape = s :: steps)
      (hne : s ≠ .this) : TargetedIn Read p.rebased

/-- A path that is written to, whatever it was read from. -/
abbrev Path.Targeted (p : Path) : Prop := TargetedIn Spelled p

theorem Path.TargetedIn.mono {Read Read' : Path → Prop} {p : Path} (h : TargetedIn Read p) (hr : ∀ q, Read q → Read' q) :
    TargetedIn Read' p := by
  cases h with
  | read h => exact .read (hr _ h)
  | rebased h hs hne => exact .rebased (hr _ h) hs hne

theorem Path.Spelled.isReserved_root {p : Path} {name : String} (h : p.Spelled) (hroot : .root name ∈ p.segments) :
    isReserved name = false :=
  h.whole.isReserved_root (List.mem_map.mpr ⟨_, hroot, rfl⟩)

theorem Path.Targeted.isReserved_asName? {p : Path} {name : String} (h : p.Targeted) (hname : p.asName? = some name) :
    isReserved name = false := by
  unfold Path.asName? at hname
  split at hname
  next root hsegments =>
    cases hname
    cases h with
    | read h => exact h.isReserved_root (hsegments ▸ List.mem_singleton_self _)
    | rebased => cases hsegments
  next => cases hname

/-- What holds of a node by itself, with what is known of paths that were read. -/
def Node.SoundIn (Read : Path → Prop) (n : Node) : Prop :=
  match n.kind with
  | .literal v => v.isPlain = true
  | .property p _ | .increment (.path p _) _ _ => Read p
  | .assignment (.path p _) _ _ _ _ => p.TargetedIn Read
  | .assignment (.name name) _ _ _ _ | .increment (.name name) _ _ | .forEach name _ _ _ _ => isReserved name = false
  | .regexMatch _ pattern (some r) => ∃ text, pattern.literal? = some (.str text) ∧ Regex.whole text = .ok r
  | .functionDecl fn => fn.LaidOut ∧ isReserved fn.name = false ∧ ∀ p ∈ fn.params, isReserved p.name = false
  | _ => True

/-- What holds of a node by itself, whatever it was read from. -/
abbrev Node.Sound (n : Node) : Prop := n.SoundIn Path.Spelled

theorem Node.SoundIn.of_property {Read : Path → Prop} {n : Node} {p : Path} {site : SiteId} (h : n.SoundIn Read)
    (hk : n.kind = .property p site) : Read p := by
  unfold SoundIn at h
  rwa [hk] at h

theorem Node.SoundIn.mono {Read Read' : Path → Prop} {n : Node} (h : n.SoundIn Read) (hr : ∀ p, Read p → Read' p) :
    n.SoundIn Read' := by
  unfold SoundIn at h ⊢
  cases hkind : n.kind with
  | property p site => rw [hkind] at h; exact hr p h
  | assignment target op value ty register =>
    rw [hkind] at h
    cases target with
    | name name => exact h
    | path p site => exact h.mono hr
  | increment target delta before =>
    rw [hkind] at h
    cases target with
    | name name => exact h
    | path p site => exact hr p h
  | regexMatch subject pattern compiled =>
    rw [hkind] at h
    cases compiled with
    | none => trivial
    | some r => exact h
  | _ => rw [hkind] at h; exact h

/-! ## Lists of trees -/

/-- A node that occurs in one of some trees. -/
def Node.Among (ns : List Node) (m : Node) : Prop := ∃ n ∈ ns, m.Occurs n

namespace Node.Among

variable {ns ns' : List Node} {m n : Node}

theorem mono (h : Among ns m) (hs : ns ⊆ ns') : Among ns' m := by
  obtain ⟨n, hn, ho⟩ := h
  exact ⟨n, hs hn, ho⟩

theorem append_iff : Among (ns ++ ns') m ↔ Among ns m ∨ Among ns' m := by
  constructor
  · rintro ⟨n, hn, ho⟩
    exact (List.mem_append.mp hn).imp (fun hn => ⟨n, hn, ho⟩) (fun hn => ⟨n, hn, ho⟩)
  · rintro (⟨n, hn, ho⟩ | ⟨n, hn, ho⟩)
    · exact ⟨n, List.mem_append_left _ hn, ho⟩
    · exact ⟨n, List.mem_append_right _ hn, ho⟩

/-- A node of a list is its first tree, or occurs below it or in another tree. -/
theorem cons_cases (h : Among (n :: ns) m) : m = n ∨ Among (n.children ++ ns) m := by
  obtain ⟨t, ht, ho⟩ := h
  rcases List.mem_cons.mp ht with rfl | ht
  · cases ho with
    | here => exact .inl rfl
    | under child occurs => exact .inr ⟨_, List.mem_append_left _ child, occurs⟩
  · exact .inr ⟨t, List.mem_append_right _ ht, ho⟩

theorem of_children (h : Among n.children m) : Among [n] m := by
  obtain ⟨c, hc, ho⟩ := h
  exact ⟨n, List.mem_singleton_self n, .under hc ho⟩

theorem of_append (h : Among (n.children ++ ns) m) : Among (n :: ns) m := by
  rcases append_iff.mp h with h | h
  · exact h.of_children.mono (List.cons_subset_cons n (List.nil_subset ns))
  · exact h.mono (List.subset_cons_self n ns)

end Node.Among

/-- Trees that were made while sites were numbered from `lo` up to `hi`. Their nodes are sound under a condition on the
text they were read from. -/
structure GrownIf (w : Prop) (Read : Path → Prop) (lo hi : SiteId) (ns : List Node) : Prop where
  sites : ∀ m, Node.Among ns m → ∀ s, m.site? = some s → lo ≤ s ∧ s < hi
  unique : ∀ m m', Node.Among ns m → Node.Among ns m' → ∀ s, m.site? = some s → m'.site? = some s → m = m'
  sound : w → ∀ m, Node.Among ns m → m.SoundIn Read

/-- Trees that were made while sites were numbered, all of whose nodes are sound. -/
abbrev Grown := GrownIf True Path.Spelled

variable {w : Prop} {Read : Path → Prop} {lo mid hi : SiteId} {ns ns' : List Node} {n : Node}

theorem Grown.sound (h : Grown lo hi ns) (m : Node) (hm : Node.Among ns m) : m.Sound := GrownIf.sound h trivial m hm

namespace GrownIf

theorem nil : GrownIf w Read lo hi [] where
  sites _ h := by obtain ⟨n, hn, -⟩ := h; cases hn
  unique _ _ h := by obtain ⟨n, hn, -⟩ := h; cases hn
  sound _ _ h := by obtain ⟨n, hn, -⟩ := h; cases hn

theorem restrict (h : GrownIf w Read lo hi ns) (hs : ∀ m, Node.Among ns' m → Node.Among ns m) : GrownIf w Read lo hi ns' where
  sites m hm := h.sites m (hs m hm)
  unique m m' hm hm' := h.unique m m' (hs m hm) (hs m' hm')
  sound hw m hm := h.sound hw m (hs m hm)

theorem subset (h : GrownIf w Read lo hi ns) (hs : ns' ⊆ ns) : GrownIf w Read lo hi ns' := h.restrict fun _ hm => hm.mono hs

theorem widen {lo' hi' : SiteId} (h : GrownIf w Read lo hi ns) (hlo : lo' ≤ lo) (hhi : hi ≤ hi') : GrownIf w Read lo' hi' ns where
  sites m hm s hs := by
    obtain ⟨h₁, h₂⟩ := h.sites m hm s hs
    exact ⟨Nat.le_trans hlo h₁, Nat.lt_of_lt_of_le h₂ hhi⟩
  unique := h.unique
  sound := h.sound

theorem whole (h : GrownIf w Read lo hi ns) (hw : w) (hr : ∀ p, Read p → p.Spelled) : Grown lo hi ns :=
  ⟨h.sites, h.unique, fun _ m hm => (h.sound hw m hm).mono hr⟩

theorem append (h : GrownIf w Read lo mid ns) (h' : GrownIf w Read mid hi ns') (hlo : lo ≤ mid) (hhi : mid ≤ hi) :
    GrownIf w Read lo hi (ns ++ ns') where
  sites m hm := (Node.Among.append_iff.mp hm).elim ((h.widen (Nat.le_refl lo) hhi).sites m)
    ((h'.widen hlo (Nat.le_refl hi)).sites m)
  unique m m' hm hm' s hs hs' := by
    rcases Node.Among.append_iff.mp hm with hm | hm <;> rcases Node.Among.append_iff.mp hm' with hm' | hm'
    · exact h.unique m m' hm hm' s hs hs'
    · exact absurd (h.sites m hm s hs).2 (Nat.not_lt.mpr (h'.sites m' hm' s hs').1)
    · exact absurd (h.sites m' hm' s hs').2 (Nat.not_lt.mpr (h'.sites m hm s hs).1)
    · exact h'.unique m m' hm hm' s hs hs'
  sound hw m hm := (Node.Among.append_iff.mp hm).elim (h.sound hw m) (h'.sound hw m)

/-- A node made from some of the trees, with a new number if it has one. -/
theorem node (h : GrownIf w Read lo mid (n.children ++ ns)) (hsound : w → n.SoundIn Read)
    (hsite : ∀ s, n.site? = some s → lo ≤ s ∧ mid ≤ s ∧ s < hi) (hhi : mid ≤ hi) : GrownIf w Read lo hi (n :: ns) where
  sites m hm s hs := by
    rcases hm.cons_cases with rfl | hm
    · exact ⟨(hsite s hs).1, (hsite s hs).2.2⟩
    · exact (h.widen (Nat.le_refl lo) hhi).sites m hm s hs
  unique m m' hm hm' s hs hs' := by
    rcases hm.cons_cases with rfl | hm <;> rcases hm'.cons_cases with rfl | hm'
    · rfl
    · exact absurd (h.sites m' hm' s hs').2 (Nat.not_lt.mpr (hsite s hs).2.1)
    · exact absurd (h.sites m hm s hs).2 (Nat.not_lt.mpr (hsite s hs').2.1)
    · exact h.unique m m' hm hm' s hs hs'
  sound hw m hm := by
    rcases hm.cons_cases with rfl | hm
    · exact hsound hw
    · exact h.sound hw m hm

end GrownIf

end PathScript
