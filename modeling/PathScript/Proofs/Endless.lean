import Mathlib.Data.List.Perm.Subperm
import Mathlib.Data.List.ProdSigma
import PathScript.Proofs.Acceleration.History
import PathScript.Proofs.Place

/-! # Values without end

Containers are cells, so a program can put a container into itself. Texts,
copies and comparisons keep no record of where they have been: they come to an
end when nothing on their way holds itself, and only then.

The depth that these functions are run with is no bound of the language. As many
steps as there are containers lead to every end that there is, and for a
comparison, which follows two values at once, as many as there are pairs. -/

namespace PathScript

/-! ## Ways through containers -/

/-- The container that a value is; objects are some only where their fields are followed. -/
def Value.container? (fields : Bool) : Value → Option Ref
  | list a => some (.list a)
  | array a => some (.array a)
  | map a => some (.map a)
  | object _ a => if fields then some (.object a) else none
  | _ => none

namespace Heap

variable {h : Heap} {fields : Bool} {v w : Value} {r s : Ref} {n : Nat}

/-- A container holds another that is followed. -/
def Nests (h : Heap) (fields : Bool) (r r' : Ref) : Prop := ∃ v ∈ h.contents r, v.container? fields = some r'

/-- A value is a container, or one that leads to it. -/
def Reaches (h : Heap) (fields : Bool) (v : Value) (r : Ref) : Prop :=
  ∃ r₀, v.container? fields = some r₀ ∧ Relation.ReflTransGen (h.Nests fields) r₀ r

/-- A value reaches a container that holds itself, be it through others. -/
def Endless (h : Heap) (fields : Bool) (v : Value) : Prop :=
  ∃ r, h.Reaches fields v r ∧ Relation.TransGen (h.Nests fields) r r

/-- No way from a value into containers is longer than `n`. -/
def EndsWithin (h : Heap) (fields : Bool) : Nat → Value → Prop
  | 0, v => v.container? fields = none
  | n + 1, v => ∀ r, v.container? fields = some r → ∀ w ∈ h.contents r, h.EndsWithin fields n w

theorem Reaches.of_mem (hv : v.container? fields = some r) (hw : w ∈ h.contents r) (hreach : h.Reaches fields w s) :
    h.Reaches fields v s := by
  obtain ⟨r₁, hr₁, hsteps⟩ := hreach
  exact ⟨r, hv, .head ⟨w, hw, hr₁⟩ hsteps⟩

theorem Endless.of_mem (hv : v.container? fields = some r) (hw : w ∈ h.contents r) (hendless : h.Endless fields w) :
    h.Endless fields v := by
  obtain ⟨s, hreach, hloop⟩ := hendless
  exact ⟨s, hreach.of_mem hv hw, hloop⟩

theorem endsWithin_of_none (hv : v.container? fields = none) : h.EndsWithin fields n v := by
  cases n with
  | zero => exact hv
  | succ n =>
    intro r hr
    rw [hv] at hr
    cases hr

theorem endsWithin_succ (hv : v.container? fields = some r) :
    h.EndsWithin fields (n + 1) v ↔ ∀ w ∈ h.contents r, h.EndsWithin fields n w := by
  refine ⟨fun hends => hends r hv, fun hends r' hr' => ?_⟩
  cases hv.symm.trans hr'
  exact hends

theorem EndsWithin.succ (hends : h.EndsWithin fields n v) : h.EndsWithin fields (n + 1) v := by
  induction n generalizing v with
  | zero => exact endsWithin_of_none hends
  | succ n ih => exact fun r hr w hw => ih (hends r hr w hw)

theorem EndsWithin.mono {m : Nat} (hle : n ≤ m) (hends : h.EndsWithin fields n v) : h.EndsWithin fields m v := by
  induction hle with
  | refl => exact hends
  | step _ ih => exact ih.succ

theorem EndsWithin.not_endless (hends : h.EndsWithin fields n v) : ¬ h.Endless fields v := by
  rintro ⟨s, ⟨r, hr, hreach⟩, hloop⟩
  induction n generalizing v r with
  | zero =>
    rw [show v.container? fields = none from hends] at hr
    cases hr
  | succ n ih =>
    -- The way goes on from `s` to `s`, so there is a first step also where `r` is `s`.
    obtain ⟨r₁, ⟨w, hw, hr₁⟩, hrest⟩ := Relation.TransGen.head'_iff.mp (Relation.TransGen.trans_right hreach hloop)
    exact ih (hends r hr w hw) r₁ hr₁ hrest

theorem length_refs (h : Heap) : h.refs.length = h.size := by
  simp [refs, size, Nat.add_assoc]

/-- A way that never comes back is at most as long as there are containers; `seen` are those on the way so far. -/
theorem endsWithin_of_seen (seen : List Ref) (hv : v.container? fields = some r) (hnodup : seen.Nodup)
    (hsub : seen ⊆ h.refs) (hseen : ∀ s ∈ seen, Relation.TransGen (h.Nests fields) s r)
    (hlength : seen.length + n = h.size + 1) (hends : ¬ h.Endless fields v) : h.EndsWithin fields n v := by
  induction n generalizing v r seen with
  | zero =>
    have hle : seen.length ≤ h.refs.length := (hnodup.subperm hsub).length_le
    rw [length_refs] at hle
    omega
  | succ n ih =>
    intro r' hr' w hw
    cases hv.symm.trans hr'
    cases hr₁ : w.container? fields with
    | none => exact endsWithin_of_none hr₁
    | some r₁ =>
      have hstep : h.Nests fields r r₁ := ⟨w, hw, hr₁⟩
      have hnew : r ∉ seen := fun hmem => hends ⟨r, ⟨r, hv, .refl⟩, hseen r hmem⟩
      refine ih (r :: seen) hr₁ (List.nodup_cons.mpr ⟨hnew, hnodup⟩)
        (List.cons_subset.mpr ⟨mem_refs_of_mem_contents hw, hsub⟩) ?_ ?_ (mt (Endless.of_mem hv hw) hends)
      · intro s hs
        obtain rfl | hs := List.mem_cons.mp hs
        · exact .single hstep
        · exact (hseen s hs).tail hstep
      · rw [List.length_cons]
        omega

/-- If a value reaches no container that holds itself, its ways end within as many steps as there are containers. -/
theorem endsWithin_of_not_endless (hends : ¬ h.Endless fields v) : h.EndsWithin fields (h.size + 1) v := by
  cases hr : v.container? fields with
  | none => exact endsWithin_of_none hr
  | some r =>
    exact endsWithin_of_seen [] hr .nil (List.nil_subset _) (fun s hs => nomatch hs) (Nat.zero_add _) hends

end Heap

/-! ## Texts -/

namespace Value

variable {h : Heap} {held : Option Nat} {v w : Value} {n : Nat}

theorem isSome_mapM {α β : Type} {f : α → Option β} {l : List α} :
    (l.mapM f).isSome = true ↔ ∀ x ∈ l, (f x).isSome = true := by
  induction l with
  | nil => simp
  | cons x l ih =>
    rw [List.forall_mem_cons, ← ih, List.mapM_cons]
    cases f x <;> cases l.mapM f <;> simp

theorem isSome_bind_some {α β : Type} (x : Option α) (f : α → β) : (x.bind fun a => some (f a)).isSome = x.isSome := by
  cases x <;> rfl

theorem isSome_nestedText : (nestedText (textWithin h n) v).isSome = (textWithin h n v).isSome := by
  cases v <;> cases n <;> rfl

/-- A value has a text at a depth exactly if no way from it is longer. -/
theorem isSome_textWithin : (textWithin h n v).isSome = true ↔ h.EndsWithin true n v := by
  induction n generalizing v with
  | zero => cases v <;> simp [textWithin, Heap.EndsWithin, container?]
  | succ n ih =>
    have nested : ∀ w, (nestedText (textWithin h n) w).isSome = true ↔ h.EndsWithin true n w := fun w => by
      rw [isSome_nestedText, ih]
    cases v with
    | list | array | map | object =>
      rw [Heap.endsWithin_succ rfl]
      simp only [textWithin, Heap.contents, List.forall_mem_map, Option.bind_eq_bind, Option.pure_def, isSome_bind_some,
        isSome_mapM, nested]
    | _ => exact iff_of_true rfl (Heap.endsWithin_of_none rfl)

end Value

/-! ## Copies -/

/-- A run that gives a value in every state if `p` holds, and comes to no end in any if not. -/
def Run.EndsIff {σ ε α : Type} (x : Run σ ε α) (p : Prop) : Prop :=
  (p → ∀ s, ∃ a s', x s = .ok a s') ∧ (¬ p → ∀ s, x s = .diverged)

namespace Run.EndsIff

variable {σ ε α β : Type} {x : Run σ ε α} {p q : Prop}

theorem of_ok (hx : ∀ s, ∃ a s', x s = .ok a s') (hp : p) : x.EndsIff p :=
  ⟨fun _ => hx, fun hnot => absurd hp hnot⟩

theorem bind {f : α → Run σ ε β} (hx : x.EndsIff p) (hf : ∀ a, (f a).EndsIff q) : (x >>= f).EndsIff (p ∧ q) := by
  refine ⟨fun ⟨hp, hq⟩ s => ?_, fun hnot s => ?_⟩
  · obtain ⟨a, s', ha⟩ := hx.1 hp s
    rw [bind_ok ha]
    exact (hf a).1 hq s'
  · by_cases hp : p
    · obtain ⟨a, s', ha⟩ := hx.1 hp s
      rw [bind_ok ha]
      exact (hf a).2 (fun hq => hnot ⟨hp, hq⟩) s'
    · rw [bind_apply, hx.2 hp s]

theorem then_ok {f : α → Run σ ε β} (hx : x.EndsIff p) (hf : ∀ a s, ∃ b s', f a s = .ok b s') : (x >>= f).EndsIff p := by
  have hbind := hx.bind (q := True) fun a => .of_ok (hf a) trivial
  rwa [and_true] at hbind

theorem mapM {f : α → Run σ ε β} {P : α → Prop} {l : List α} (hf : ∀ x ∈ l, (f x).EndsIff (P x)) :
    (l.mapM f).EndsIff (∀ x ∈ l, P x) := by
  induction l with
  | nil => exact .of_ok (fun s => ⟨[], s, rfl⟩) (fun x hx => nomatch hx)
  | cons x l ih =>
    obtain ⟨hx, hl⟩ := List.forall_mem_cons.mp hf
    rw [List.mapM_cons, List.forall_mem_cons]
    exact hx.bind fun b => (ih hl).then_ok fun bs s => ⟨_, s, rfl⟩

end Run.EndsIff

namespace Value

variable {h : Heap} {held : Option Nat} {v w : Value} {n : Nat}

theorem copyWithin_endsIff {ε : Type} : (copyWithin h n v : Run Heap ε Value).EndsIff (h.EndsWithin false n v) := by
  induction n generalizing v with
  | zero =>
    cases v with
    | list | array | map => exact ⟨fun hends => absurd hends (Option.some_ne_none _), fun _ _ => rfl⟩
    | _ => exact .of_ok (fun s => ⟨_, s, rfl⟩) rfl
  | succ n ih =>
    cases v with
    | list a =>
      rw [Heap.endsWithin_succ rfl]
      exact (Run.EndsIff.mapM fun w _ => ih).then_ok fun items s => ⟨_, _, rfl⟩
    | array a =>
      rw [Heap.endsWithin_succ rfl]
      exact (Run.EndsIff.mapM fun w _ => ih).then_ok fun items s => ⟨_, _, rfl⟩
    | map a =>
      rw [Heap.endsWithin_succ rfl, Heap.contents, List.forall_mem_map]
      exact (Run.EndsIff.mapM fun e _ => ih.then_ok fun w s => ⟨_, _, rfl⟩).then_ok fun entries s => ⟨_, _, rfl⟩
    | _ => exact .of_ok (fun s => ⟨_, s, rfl⟩) (Heap.endsWithin_of_none rfl)

end Value

/-! ## Comparisons -/

namespace Value

variable {h : Heap} {held : Option Nat} {v w : Value} {n : Nat} {b : Bool}

theorem isSome_allM {α : Type} {p : α → Option Bool} {l : List α} (hp : ∀ x ∈ l, (p x).isSome = true) :
    (allM p l).isSome = true := by
  induction l with
  | nil => rfl
  | cons x l ih =>
    obtain ⟨hx, hl⟩ := List.forall_mem_cons.mp hp
    obtain ⟨b, hb⟩ := Option.isSome_iff_exists.mp hx
    rw [allM, hb]
    cases b with
    | true => exact ih hl
    | false => rfl

theorem allM_of_allM {α : Type} {p q : α → Option Bool} (hpq : ∀ {x b}, p x = some b → q x = some b) {l : List α}
    (hp : allM p l = some b) : allM q l = some b := by
  induction l with
  | nil => exact hp
  | cons x l ih =>
    obtain ⟨c, hc, hrest⟩ := Option.bind_eq_some_iff.mp hp
    refine Option.bind_eq_some_iff.mpr ⟨c, hpq hc, ?_⟩
    cases c with
    | true => exact ih hrest
    | false => exact hrest

/-- If more answers let all elements be decided, one of those in question is new. -/
theorem exists_of_allM {α : Type} {p q : α → Option Bool} (hpq : ∀ {x b}, p x = some b → q x = some b) {l : List α}
    (hp : allM p l = none) (hq : (allM q l).isSome = true) : ∃ x ∈ l, p x = none ∧ (q x).isSome = true := by
  induction l with
  | nil => cases hp
  | cons x l ih =>
    rw [allM] at hp hq
    cases hx : p x with
    | none =>
      refine ⟨x, List.mem_cons_self, hx, ?_⟩
      cases hqx : q x with
      | none => rw [hqx] at hq; exact hq
      | some b => rfl
    | some b =>
      rw [hx] at hp
      rw [hpq hx] at hq
      cases b with
      | false => cases hp
      | true =>
        obtain ⟨y, hy, hpy, hqy⟩ := ih hp hq
        exact ⟨y, List.mem_cons_of_mem _ hy, hpy, hqy⟩

/-- The answer for a pair of elements; where there is no such pair, the containers differ. -/
def pairEqual (eq : Value → Value → Option Bool) : Option (Value × Value) → Option Bool
  | some q => eq q.1 q.2
  | none => some false

/-- What comparing two values comes to. -/
inductive Compares (h : Heap) (held : Option Nat) (v w : Value) : Prop
  | at_once (b : Bool) (heq : ∀ n, equalWithin h held n v w = some b)
  /-- A list is asked for that cannot be read. -/
  | never (a : Nat) (hheld : held = some a) (hor : v = .list a ∨ w = .list a) (heq : ∀ n, equalWithin h held n v w = none)
  /-- Pairs of what the two containers hold are compared in turn. -/
  | inside (r r' : Ref) (qs : List (Option (Value × Value))) (hv : v.container? false = some r)
      (hw : w.container? false = some r') (hqs : ∀ q, some q ∈ qs → q.1 ∈ h.contents r ∧ q.2 ∈ h.contents r')
      (hzero : equalWithin h held 0 v w = none)
      (hsucc : ∀ n, equalWithin h held (n + 1) v w = allM (pairEqual (equalWithin h held n)) qs)

/-- The pairs that are compared in sequences; sequences of different lengths differ. -/
def itemPairs (xs ys : Array Value) : List (Option (Value × Value)) :=
  if xs.size = ys.size then (xs.toList.zip ys.toList).map some else [none]

/-- The pairs that are compared in maps, by the keys of the first. -/
def entryPairs (left right : Dict Value) : List (Option (Value × Value)) :=
  if left.size = right.size then left.entries.map fun e => (right.get? e.1).map (e.2, ·) else [none]

theorem allM_map {α β : Type} (p : β → Option Bool) (f : α → β) (l : List α) : allM p (l.map f) = allM (p ∘ f) l := by
  induction l with
  | nil => rfl
  | cons x l ih => rw [List.map_cons, allM, allM, ih]; rfl

theorem itemsEqual_eq (eq : Value → Value → Option Bool) (xs ys : Array Value) :
    itemsEqual eq xs ys = allM (pairEqual eq) (itemPairs xs ys) := by
  unfold itemsEqual itemPairs
  split
  · rw [allM_map]
    rfl
  · rfl

theorem entriesEqual_eq (eq : Value → Value → Option Bool) (left right : Dict Value) :
    entriesEqual eq left right = allM (pairEqual eq) (entryPairs left right) := by
  unfold entriesEqual entryPairs
  split
  · rw [allM_map]
    congr 1
    funext e
    rw [Function.comp_apply]
    cases right.get? e.1 <;> rfl
  · rfl

theorem mem_itemPairs {xs ys : Array Value} {q : Value × Value} (hq : some q ∈ itemPairs xs ys) :
    q.1 ∈ xs.toList ∧ q.2 ∈ ys.toList := by
  unfold itemPairs at hq
  split at hq
  · obtain ⟨q', hq', heq⟩ := List.mem_map.mp hq
    cases heq
    exact List.of_mem_zip hq'
  · simp at hq

theorem mem_entryPairs {left right : Dict Value} {q : Value × Value} (hq : some q ∈ entryPairs left right) :
    q.1 ∈ left.entries.map (·.2) ∧ q.2 ∈ right.entries.map (·.2) := by
  unfold entryPairs at hq
  split at hq
  · obtain ⟨e, he, heq⟩ := List.mem_map.mp hq
    obtain ⟨u, hu, rfl⟩ := Option.map_eq_some_iff.mp heq
    exact ⟨List.mem_map_of_mem he, List.mem_map_of_mem (f := (·.2)) (Entries.mem_of_find? hu)⟩
  · simp at hq

/-- A container is the same as itself without a look inside. -/
theorem Compares.of_inside {r r' : Ref} {qs : List (Option (Value × Value))} (same : Prop) [Decidable same]
    (hv : v.container? false = some r) (hw : w.container? false = some r')
    (hqs : ∀ q, some q ∈ qs → q.1 ∈ h.contents r ∧ q.2 ∈ h.contents r') (hzero : equalWithin h held 0 v w = none)
    (hsucc : ∀ n, equalWithin h held (n + 1) v w =
      if same then some true else allM (pairEqual (equalWithin h held n)) qs) : Compares h held v w := by
  by_cases hsame : same
  · exact .inside r r' [] hv hw (fun q hq => nomatch hq) hzero fun n => by rw [hsucc, if_pos hsame, allM]
  · exact .inside r r' qs hv hw hqs hzero fun n => by rw [hsucc, if_neg hsame]

theorem compares (h : Heap) (held : Option Nat) (v w : Value) : Compares h held v w := by
  cases v with
  | list a =>
    cases w with
    | list b =>
      by_cases hheld : a ≠ b ∧ (held = some a ∨ held = some b)
      · obtain ⟨hab, hor⟩ := hheld
        have hnever : ∀ n, equalWithin h held n (list a) (list b) = none := by
          intro n
          cases n with
          | zero => rfl
          | succ n => simp [equalWithin, hab, hor]
        obtain ha | hb := hor
        · exact .never a ha (.inl rfl) hnever
        · exact .never b hb (.inr rfl) hnever
      · refine .of_inside (a = b) rfl rfl (fun q => mem_itemPairs) rfl fun n => ?_
        rw [equalWithin, itemsEqual_eq]
        split
        · rfl
        · rename_i hab
          rw [if_neg]
          simpa [hab] using hheld
    | _ => exact .at_once false fun n => by cases n <;> rfl
  | array a =>
    cases w with
    | array b =>
      refine .of_inside (a = b) rfl rfl (fun q => mem_itemPairs) rfl fun n => ?_
      rw [equalWithin, itemsEqual_eq]
    | _ => exact .at_once false fun n => by cases n <;> rfl
  | map a =>
    cases w with
    | map b =>
      refine .of_inside (a = b) rfl rfl (fun q => mem_entryPairs) rfl fun n => ?_
      rw [equalWithin, entriesEqual_eq]
    | _ => exact .at_once false fun n => by cases n <;> rfl
  | _ => cases w <;> exact .at_once _ fun n => by cases n <;> rfl

theorem pairEqual_of_pairEqual {eq eq' : Value → Value → Option Bool} (heq : ∀ {v w b}, eq v w = some b → eq' v w = some b)
    {q : Option (Value × Value)} (hq : pairEqual eq q = some b) : pairEqual eq' q = some b := by
  cases q with
  | none => exact hq
  | some q => exact heq hq

theorem equalWithin_succ_of_some {n : Nat} {v w : Value} {b : Bool} (hb : equalWithin h held n v w = some b) :
    equalWithin h held (n + 1) v w = some b := by
  cases compares h held v w with
  | at_once c heq =>
    rw [heq]
    rwa [heq] at hb
  | never a hheld hor heq =>
    rw [heq] at hb
    cases hb
  | inside r r' qs hv hw hqs hzero hsucc =>
    cases n with
    | zero =>
      rw [hzero] at hb
      cases hb
    | succ n =>
      rw [hsucc] at hb ⊢
      exact allM_of_allM (pairEqual_of_pairEqual equalWithin_succ_of_some) hb

theorem equalWithin_mono {m : Nat} (hle : n ≤ m) (hb : equalWithin h held n v w = some b) :
    equalWithin h held m v w = some b := by
  induction hle with
  | refl => exact hb
  | step _ ih => exact equalWithin_succ_of_some ih

/-- A comparison ends where the ways from one of the two values do, if it asks for no list that is held. -/
theorem isSome_equalWithin {n : Nat} {v w : Value} (hends : h.EndsWithin false n v ∨ h.EndsWithin false n w)
    (hheld : ∀ a, held = some a → ¬ h.Reaches false v (.list a) ∧ ¬ h.Reaches false w (.list a)) :
    (equalWithin h held n v w).isSome = true := by
  cases compares h held v w with
  | at_once b heq =>
    rw [heq]
    rfl
  | never a ha hor heq =>
    obtain rfl | rfl := hor
    · exact absurd ⟨_, rfl, .refl⟩ (hheld a ha).1
    · exact absurd ⟨_, rfl, .refl⟩ (hheld a ha).2
  | inside r r' qs hv hw hqs hzero hsucc =>
    cases n with
    | zero =>
      rw [Heap.EndsWithin, Heap.EndsWithin, hv, hw] at hends
      simp at hends
    | succ n =>
      rw [hsucc]
      rw [Heap.endsWithin_succ hv, Heap.endsWithin_succ hw] at hends
      refine isSome_allM fun q hq => ?_
      cases q with
      | none => rfl
      | some q =>
        obtain ⟨hleft, hright⟩ := hqs q hq
        refine isSome_equalWithin (hends.imp (fun hends => hends _ hleft) fun hends => hends _ hright) fun a ha => ?_
        exact ⟨mt (.of_mem hv hleft) (hheld a ha).1, mt (.of_mem hw hright) (hheld a ha).2⟩

/-- As many steps as there are containers are no more than there are pairs. -/
theorem isSome_equalHolding (hends : ¬ h.Endless false v ∨ ¬ h.Endless false w)
    (hheld : ∀ a, held = some a → ¬ h.Reaches false v (.list a) ∧ ¬ h.Reaches false w (.list a)) :
    (equalHolding h held v w).isSome = true := by
  have hle : h.size + 1 ≤ h.size * h.size + 1 := Nat.succ_le_succ (Nat.le_mul_self _)
  exact isSome_equalWithin (hends.imp (fun hends => (Heap.endsWithin_of_not_endless hends).mono hle)
    fun hends => (Heap.endsWithin_of_not_endless hends).mono hle) hheld

theorem eq_of_container? {r : Ref} (hv : v.container? false = some r) (hw : w.container? false = some r) : v = w := by
  cases v <;> cases hv <;> cases w <;> cases hw <;> rfl

/-- A comparison that needs a depth meets as many pairs of containers on one way, and none of them twice: a pair that
came back would be decided at the lesser depth. -/
theorem exists_pairs {n : Nat} {v w : Value} (hnone : equalWithin h held n v w = none)
    (hsome : (equalWithin h held (n + 1) v w).isSome = true) :
    ∃ met : List (Ref × Ref), met.Nodup ∧ met.length = n ∧ ∀ q ∈ met, q.1 ∈ h.refs ∧ q.2 ∈ h.refs ∧
      ∃ v w, v.container? false = some q.1 ∧ w.container? false = some q.2 ∧
        (equalWithin h held (n + 1) v w).isSome = true := by
  cases n with
  | zero => exact ⟨[], .nil, rfl, fun q hq => nomatch hq⟩
  | succ n =>
    cases compares h held v w with
    | at_once b heq =>
      rw [heq] at hnone
      cases hnone
    | never a ha hor heq =>
      rw [heq] at hsome
      cases hsome
    | inside r r' qs hv hw hqs hzero hsucc =>
      rw [hsucc] at hsome
      obtain ⟨q, hq, hqnone, hqsome⟩ :=
        exists_of_allM (pairEqual_of_pairEqual equalWithin_succ_of_some) ((hsucc n).symm.trans hnone) hsome
      cases q with
      | none => cases hqnone
      | some q =>
        obtain ⟨hleft, hright⟩ := hqs q hq
        obtain ⟨met, hnodup, hlength, hmet⟩ := exists_pairs hqnone hqsome
        refine ⟨(r, r') :: met, List.nodup_cons.mpr ⟨fun hmem => ?_, hnodup⟩, congrArg (· + 1) hlength, ?_⟩
        · obtain ⟨-, -, v', w', hv', hw', hsome'⟩ := hmet _ hmem
          cases eq_of_container? hv' hv
          cases eq_of_container? hw' hw
          rw [hnone] at hsome'
          cases hsome'
        · intro q' hq'
          obtain rfl | hq' := List.mem_cons.mp hq'
          · refine ⟨Heap.mem_refs_of_mem_contents hleft, Heap.mem_refs_of_mem_contents hright, v, w, hv, hw, ?_⟩
            rwa [hsucc]
          · obtain ⟨hfirst, hsecond, v', w', hv', hw', hsome'⟩ := hmet q' hq'
            obtain ⟨b, hb⟩ := Option.isSome_iff_exists.mp hsome'
            refine ⟨hfirst, hsecond, v', w', hv', hw', ?_⟩
            rw [equalWithin_succ_of_some hb]
            rfl

/-- Beyond the number of pairs of containers, a greater depth gives no new answer. -/
theorem equalWithin_of_succ (hn : h.size * h.size < n) (hb : equalWithin h held (n + 1) v w = some b) :
    equalWithin h held n v w = some b := by
  cases hcase : equalWithin h held n v w with
  | some c =>
    rw [← hb, equalWithin_succ_of_some hcase]
  | none =>
    obtain ⟨met, hnodup, hlength, hmet⟩ := exists_pairs hcase (by rw [hb]; rfl)
    have hsub : met ⊆ h.refs ×ˢ h.refs := fun q hq =>
      List.pair_mem_product.mpr ⟨(hmet q hq).1, (hmet q hq).2.1⟩
    have hle := (hnodup.subperm hsub).length_le
    rw [List.length_product, Heap.length_refs, hlength] at hle
    omega

/-- The number of pairs of containers is depth enough for every comparison that ends. -/
theorem equalHolding_of_equalWithin (hb : equalWithin h held n v w = some b) : equalHolding h held v w = some b := by
  induction n with
  | zero => exact equalWithin_mono (Nat.zero_le _) hb
  | succ n ih =>
    by_cases hn : h.size * h.size < n
    · exact ih (equalWithin_of_succ hn hb)
    · exact equalWithin_mono (by omega) hb

end Value

/-! ## Maps that are written -/

theorem Heap.contents_holding {h : Heap} {a : Nat} {r : Ref} (hne : r ≠ .map a) : (h.holding a).contents r = h.contents r := by
  cases r with
  | map b =>
    have hab : a ≠ b := fun heq => hne (heq ▸ rfl)
    simp [contents, holding, modifyMap, Heap.map, Table.get?_update, hab]
  | _ => rfl

/-- A value that does not lead to a map shows the same while the map is held. -/
theorem Heap.EndsWithin.holding {h : Heap} {a n : Nat} {v : Value} (hends : h.EndsWithin true n v)
    (hreach : ¬ h.Reaches true v (.map a)) : (h.holding a).EndsWithin true n v := by
  induction n generalizing v with
  | zero => exact hends
  | succ n ih =>
    intro r hr w hw
    have hne : r ≠ .map a := by
      rintro rfl
      exact hreach ⟨_, hr, .refl⟩
    rw [contents_holding hne] at hw
    exact ih (hends r hr w hw) (mt (.of_mem hr hw) hreach)

/-! ## Ends -/

namespace Value

theorem isSome_text_iff {h : Heap} {v : Value} : (v.text h).isSome = true ↔ ¬ h.Endless true v := by
  rw [text, isSome_textWithin]
  exact ⟨Heap.EndsWithin.not_endless, Heap.endsWithin_of_not_endless⟩

theorem isSome_debug (h : Heap) (v : Value) : (v.debug h).isSome = (v.text h).isSome := by
  cases v with
  | list | array | map | object => exact Option.isSome_map
  | _ => rfl

theorem textWithin_of_endless {h : Heap} {v : Value} (hendless : h.Endless true v) (n : Nat) : textWithin h n v = none := by
  rw [← Option.not_isSome_iff_eq_none, isSome_textWithin]
  exact fun hends => hends.not_endless hendless

theorem copyWithin_of_endless {ε : Type} {h : Heap} {v : Value} (hendless : h.Endless false v) (n : Nat) (s : Heap) :
    (copyWithin h n v : Run Heap ε Value) s = .diverged :=
  copyWithin_endsIff.2 (fun hends => hends.not_endless hendless) s

/-- In every heap, a value has a text exactly if it reaches no container that holds itself, and is copied exactly if it
reaches none by lists, arrays and maps; otherwise no depth would do. Two values are compared if one of them reaches
none, and the depth of a comparison is enough wherever some depth is. While a map is written, or a list searched, the
same holds of values that do not lead to it. -/
theorem follow_ends {ε : Type} (h : Heap) (v : Value) : ((v.text h).isSome = true ↔ ¬ h.Endless true v) ∧
    ((v.debug h).isSome = true ↔ ¬ h.Endless true v) ∧
    (∀ a, ¬ h.Endless true v → ¬ h.Reaches true v (.map a) → (v.key (h.holding a)).isSome = true) ∧
    (h.Endless true v → ∀ n, textWithin h n v = none) ∧
    ((∃ w h', (v.copy : Run Heap ε Value) h = .ok w h') ↔ ¬ h.Endless false v) ∧
    (h.Endless false v → ∀ n s, (copyWithin h n v : Run Heap ε Value) s = .diverged) ∧ ∀ held w,
      (¬ h.Endless false v ∨ ¬ h.Endless false w →
        (∀ a, held = some a → ¬ h.Reaches false v (.list a) ∧ ¬ h.Reaches false w (.list a)) →
        (equalHolding h held v w).isSome = true) ∧
      ∀ n b, equalWithin h held n v w = some b → equalHolding h held v w = some b := by
  refine ⟨isSome_text_iff, isSome_debug h v ▸ isSome_text_iff, fun a hends hreach => ?_, textWithin_of_endless,
    ⟨?_, fun hends => ?_⟩, copyWithin_of_endless, fun held w => ⟨fun hends hheld => ?_, fun n b =>
    equalHolding_of_equalWithin⟩⟩
  · exact isSome_text_iff.mpr ((Heap.endsWithin_of_not_endless hends).holding hreach).not_endless
  · rintro ⟨w, h', hcopy⟩ hendless
    rw [copy, Run.bind_ok (Run.get_apply h), copyWithin_of_endless hendless] at hcopy
    cases hcopy
  · rw [copy, Run.bind_ok (Run.get_apply h)]
    exact copyWithin_endsIff.1 (Heap.endsWithin_of_not_endless hends) h
  · exact isSome_equalHolding hends hheld

/-- A list of a text ends, and is compared with a list that holds itself; the latter has no text. -/
theorem follow_ends_beside_endless :
    let h := ((Heap.empty.newList #[.str "a"]).2.newList #[.list 1]).2
    (¬ h.Endless true (.list 0) ∧ ¬ h.Reaches true (.list 0) (.map 0) ∧ ((list 0).key (h.holding 0)).isSome = true) ∧
    (h.Endless true (.list 1) ∧ textWithin h 5 (.list 1) = none) ∧
    (h.Endless false (.list 1) ∧ (copyWithin h 5 (.list 1) : Run Heap Error Value) h = .diverged) ∧
    (¬ h.Endless false (.list 0) ∧ (equal h (.list 0) (.list 1)).isSome = true) ∧
    (¬ h.Reaches false (.list 0) (.list 1) ∧ (equalHolding h (some 1) (.list 0) (.int 5)).isSome = true) := by
  intro h
  have hself : ∀ fields, h.Endless fields (.list 1) := fun fields =>
    ⟨.list 1, ⟨_, rfl, .refl⟩, .single ⟨.list 1, List.mem_singleton_self _, rfl⟩⟩
  have honly : ∀ {fields r}, h.Reaches fields (.list 0) r → r = .list 0 := by
    rintro fields r ⟨r₀, hr₀, hsteps⟩
    cases hr₀
    obtain rfl | ⟨r₁, ⟨w, hw, hr₁⟩, -⟩ := Relation.ReflTransGen.cases_head hsteps
    · rfl
    · cases List.mem_singleton.mp hw
      cases hr₁
  have htext : ¬ h.Endless true (.list 0) := (follow_ends (ε := Error) h (.list 0)).1.mp rfl
  have hcopy : ¬ h.Endless false (.list 0) := (follow_ends (ε := Error) h (.list 0)).2.2.2.2.1.mp ⟨_, _, rfl⟩
  have hmap : ¬ h.Reaches true (.list 0) (.map 0) := fun hreach => nomatch honly hreach
  have hlist : ¬ h.Reaches false (.list 0) (.list 1) := fun hreach => nomatch honly hreach
  obtain ⟨-, -, hkey, -, -, -, hequal⟩ := follow_ends (ε := Error) h (.list 0)
  refine ⟨⟨htext, hmap, hkey 0 htext hmap⟩, ⟨hself true, (follow_ends (ε := Error) h (.list 1)).2.2.2.1 (hself true) 5⟩,
    ⟨hself false, (follow_ends h (.list 1)).2.2.2.2.2.1 (hself false) 5 h⟩,
    ⟨hcopy, (hequal none (.list 1)).1 (.inl hcopy) fun a ha => nomatch ha⟩, hlist, ?_⟩
  refine (hequal (some 1) (.int 5)).1 (.inl hcopy) fun a ha => ?_
  cases ha
  exact ⟨hlist, fun ⟨r, hr, _⟩ => nomatch hr⟩

end Value

namespace Engine

/-- A program puts lists into themselves. After it there are values that have no text and cannot be copied or compared,
however deep one looks. -/
theorem evaluate_reaches_endless : ∃ (c : CompiledExpression) (vars : Variables) (e₁ e₂ e₃ : Engine),
      compile "l = []; l.add(l); k = []; k.add(k); l" .standard (.new .standard fun _ => 0) = .ok c e₁ ∧
      stepStore Variables.new e₁ = .ok vars e₂ ∧
      evaluate c .null .null (some vars) ⟨.interpreted, false, 10⟩ e₂ = .ok (.list 0) e₃ ∧
      vars.get? e₃.machine.store "k" = some (.list 1) ∧ ∀ n, Value.textWithin e₃.machine.store.heap n (.list 0) = none ∧
        (∀ s, (Value.copyWithin e₃.machine.store.heap n (.list 0) : Run Heap Error Value) s = .diverged) ∧
        Value.equalWithin e₃.machine.store.heap none n (.list 0) (.list 1) = none := by
  have h : (compile "l = []; l.add(l); k = []; k.add(k); l" .standard (.new .standard fun _ => 0)).okAnd (fun c e₁ =>
      (stepStore Variables.new e₁).okAnd fun vars e₂ =>
      (evaluate c .null .null (some vars) ⟨.interpreted, false, 10⟩ e₂).okAnd fun v e₃ =>
        decide (v = .list 0) && decide (vars.get? e₃.machine.store "k" = some (.list 1)) &&
          decide (e₃.machine.store.heap.list 0 = #[.list 0]) && decide (e₃.machine.store.heap.list 1 = #[.list 1])) = true := by
    decide +kernel
  simp only [Outcome.okAnd_iff, Bool.and_eq_true, decide_eq_true_eq] at h
  obtain ⟨c, e₁, hcompile, vars, e₂, hvars, v, e₃, hevaluate, ⟨⟨rfl, hk⟩, hfirst⟩, hsecond⟩ := h
  refine ⟨c, vars, e₁, e₂, e₃, hcompile, hvars, hevaluate, hk, fun n => ?_⟩
  have hself : ∀ fields, e₃.machine.store.heap.Endless fields (.list 0) := fun fields =>
    ⟨.list 0, ⟨_, rfl, .refl⟩, .single ⟨.list 0, by simp [Heap.contents, hfirst], rfl⟩⟩
  refine ⟨Value.textWithin_of_endless (hself true) n, Value.copyWithin_of_endless (hself false) n, ?_⟩
  -- The first pair that is compared is the pair of the lists themselves.
  induction n with
  | zero => rfl
  | succ n ih => simp [Value.equalWithin, Value.itemsEqual, Value.allM, hfirst, hsecond, ih]

end Engine

end PathScript
