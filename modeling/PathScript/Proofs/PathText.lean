import PathScript.Proofs.Reading.Stmt

/-! # Texts of paths

What was learned of a path is kept under its text, so the text has to say what
the segments are. It does for paths that are read as they stand, and for their
beginnings. In the body of a `with`, the path of an assignment is put behind
`this` together with its text; where it starts with an expression, as in
`null?.x = 1`, the text looks like that of a member, here `this.null`, which is
another path. -/

namespace PathScript

variable {env : Compile.Env} {site function : Nat} {p q : Path}

/-! ## Paths that compilation gives -/

/-- The path that a node reads or writes. -/
def Node.path? (n : Node) : Option Path :=
  match n.kind with
  | .property p _ => some p
  | .assignment (.path p _) _ _ _ _ => some p
  | .increment (.path p _) _ _ => some p
  | _ => none

theorem Node.path?_of_target {n : Node} {p : Path} {site : SiteId} (h : n.target? = some (.path p site)) : n.path? = some p := by
  unfold target? at h
  unfold path?
  split at h
  next hk => cases h; rw [hk]
  next hk => cases h; rw [hk]
  next => cases h

/-- A path in a compiled program, or in a path that was compiled by itself. -/
inductive Path.Compiled : Path → Prop where
  | program {env : Compile.Env} {site function : Nat} {c : PathScript.Compiled Node} {n : Node} {p : Path}
      (compiled : compileProgram env site function = .ok c) (occurs : n.Occurs c.tree) (uses : n.path? = some p) : Compiled p
  | setter {env : Compile.Env} {site function : Nat} {c : PathScript.Compiled Path}
      (compiled : compilePath env site function = .ok c) : Compiled c.tree
  | inSetter {env : Compile.Env} {site function : Nat} {c : PathScript.Compiled Path} {n : Node} {p : Path}
      (compiled : compilePath env site function = .ok c) (occurs : Node.Among c.tree.nodes n) (uses : n.path? = some p) :
      Compiled p

/-- A compiled path, or the first segments of one. -/
inductive Path.Produced : Path → Prop where
  | whole {p : Path} (h : p.Compiled) : Produced p
  | first {p : Path} (h : p.Compiled) (n : Nat) : Produced (p.take n)

theorem Node.SoundIn.targeted {Read : Path → Prop} {n : Node} (h : n.SoundIn Read) (hp : n.path? = some p) :
    p.TargetedIn Read := by
  unfold Node.SoundIn at h
  unfold Node.path? at hp
  cases hkind : n.kind with
  | property path site =>
    rw [hkind] at h hp
    cases hp
    exact .read h
  | assignment target op value ty register =>
    rw [hkind] at h hp
    cases target with
    | name name => cases hp
    | path path site => cases hp; exact h
  | increment target delta before =>
    rw [hkind] at h hp
    cases target with
    | name name => cases hp
    | path path site => cases hp; exact .read h
  | _ => rw [hkind] at hp; cases hp

theorem Path.Compiled.targeted (h : p.Compiled) : p.Targeted := by
  cases h with
  | program compiled occurs uses =>
    have hgrown := (program_of_compileProgram compiled).grown
    exact (hgrown.sound _ ⟨_, List.mem_singleton_self _, occurs⟩).targeted uses
  | setter compiled => exact .read (setter_of_compilePath compiled).spelled
  | inSetter compiled occurs uses => exact ((setter_of_compilePath compiled).grown.sound _ occurs).targeted uses

theorem Path.Targeted.written (h : p.Targeted) : Written p.text p.shape := by
  cases h with
  | read h => exact .plain h.whole
  | rebased h hs hne => exact h.written_rebased hs hne

theorem Path.Targeted.written_take (h : p.Targeted) (n : Nat) : Written (p.take n).text (p.take n).shape := by
  cases h with
  | read h => exact h.written_take n
  | rebased h hs hne => exact h.written_rebased_take hs hne n

theorem Path.Produced.written (h : p.Produced) : Written p.text p.shape := by
  cases h with
  | whole h => exact h.targeted.written
  | first h n => exact h.targeted.written_take n

/-! ## What a text says -/

/-- Two paths with one text have as many segments, and the same ones but for the second. They have the same ones
altogether exactly if the second is an expression in both or in neither. -/
theorem Path.Produced.shape_of_text (hp : p.Produced) (hq : q.Produced) (htext : p.text = q.text) :
    p.shape.length = q.shape.length ∧ (∀ i, i ≠ 1 → p.shape[i]? = q.shape[i]?) ∧
      (p.shape = q.shape ↔ (p.shape[1]? = some .base ↔ q.shape[1]? = some .base)) := by
  have hwritten : Written p.text q.shape := htext ▸ hq.written
  have halmost := hp.written.almostEqual hwritten
  exact ⟨halmost.length, halmost.others, halmost.eq_iff⟩

/-- The member `null` of a subject, and the start of what is assigned to next: one text, two paths. -/
theorem Path.Produced.shape_of_text_with_null : ∃ p q : Path, p.Produced ∧ q.Produced ∧ p.text = "this.null" ∧
    q.text = "this.null" ∧ p.shape.length = q.shape.length ∧ (∀ i, i ≠ 1 → p.shape[i]? = q.shape[i]?) ∧
    p.shape = [.this, .property "null" false] ∧ q.shape = [.this, .base] := by
  let env : Compile.Env := ⟨"with (m) \x7b this.null; null?.x = 1 \x7d".toList, .standard, .standard, .standard⟩
  let paths (c : PathScript.Compiled Node) : List Path := (c.tree.children.flatMap Node.children).filterMap Node.path?
  have h : (compileProgram env 0 0).toOption.any (fun c => decide (∃ p ∈ paths c, ∃ q ∈ paths c,
      p.text = "this.null" ∧ (q.take 2).text = "this.null" ∧
        p.shape = [.this, .property "null" false] ∧ (q.take 2).shape = [.this, .base])) = true := by decide +kernel
  obtain ⟨c, hcompiled, h⟩ := exists_ok_of_any h
  obtain ⟨p, hp, q, hq, htext, htext', hshape, hshape'⟩ := of_decide_eq_true h
  have compiled : ∀ r ∈ paths c, r.Compiled := by
    intro r hr
    obtain ⟨n, hn, huses⟩ := List.mem_filterMap.mp hr
    obtain ⟨m, hm, hn⟩ := List.mem_flatMap.mp hn
    exact .program hcompiled (.under hm (.under hn (.here n))) huses
  have hread : p.Produced := .whole (compiled p hp)
  have hwritten : (q.take 2).Produced := .first (compiled q hq) 2
  have hshapes := hread.shape_of_text hwritten (htext.trans htext'.symm)
  exact ⟨p, q.take 2, hread, hwritten, htext, htext', hshapes.1, hshapes.2.1, hshape, hshape'⟩

end PathScript
