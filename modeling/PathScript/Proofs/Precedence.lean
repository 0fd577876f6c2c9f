import PathScript.Compile.Typing

/-! # The precedence tree

A sequence of operands with operators between them can be grouped in many ways,
and precedence allows exactly one of them. The fold builds that tree, and joins
operands in the order in which a walk through the tree from the left would.

It goes over the sequence twice: the runs between the logical operators are
built first, so that a run on the right is built before a logical operator on
the left of it. This makes no difference as long as the node of a logical
operator can be built at any time (`Central`). -/

namespace PathScript.Precedence

variable {m : Type → Type} {α β γ : Type} {p q r op : Operator}

/-! ## Groupings -/

/-- A sequence of operands, grouped. -/
inductive Grouping (α : Type) where
  | leaf (operand : α)
  | join (op : Operator) (lhs rhs : Grouping α)

variable {g : Grouping α}

/-- Whether an operand of operator `q` may stand on the left of `p`. -/
def FitsLeft (p q : Operator) : Prop :=
  p.precedence < q.precedence ∨ (p.precedence = q.precedence ∧ p.isRightAssoc = false)

/-- Whether an operand of operator `q` may stand on the right of `p`. -/
def FitsRight (p q : Operator) : Prop :=
  p.precedence < q.precedence ∨ (p.precedence = q.precedence ∧ p.isRightAssoc = true)

namespace Grouping

def first : Grouping α → α
  | leaf a => a
  | join _ lhs _ => lhs.first

/-- The operators and operands behind the first operand, in their order. -/
def tail : Grouping α → List (Operator × α)
  | leaf _ => []
  | join op lhs rhs => lhs.tail ++ (op, rhs.first) :: rhs.tail

/-- The operator that is applied last. -/
def root? : Grouping α → Option Operator
  | leaf _ => none
  | join op _ _ => some op

/-- Every operand fits to its side of the operator it belongs to. -/
def Respects : Grouping α → Prop
  | leaf _ => True
  | join op lhs rhs =>
    (lhs.Respects ∧ ∀ q ∈ lhs.root?, FitsLeft op q) ∧ (rhs.Respects ∧ ∀ q ∈ rhs.root?, FitsRight op q)

/-- Joins the operands of a grouping: those on the left, those on the right, then both. -/
def build [Monad m] (b : Operator → α → α → m α) : Grouping α → m α
  | leaf a => pure a
  | join op lhs rhs => do
    let l ← lhs.build b
    let r ← rhs.build b
    b op l r

/-- Every operator passes a test. -/
def All (p : Operator → Prop) : Grouping α → Prop
  | leaf _ => True
  | join op lhs rhs => p op ∧ lhs.All p ∧ rhs.All p

end Grouping

/-! ## Operators -/

/-- Operators that bind equally tight group from the same side. -/
theorem isRightAssoc_of_precedence (h : p.precedence = q.precedence) : p.isRightAssoc = q.isRightAssoc := by
  cases p <;> cases q <;> first | rfl | cases h

theorem bindsLeft_iff {waiting : Operator} : bindsLeft waiting op = true ↔ FitsLeft op waiting := by
  simp only [bindsLeft, FitsLeft, Bool.or_eq_true, Bool.and_eq_true, decide_eq_true_eq, beq_iff_eq, Bool.not_eq_true']
  exact or_congr_right (and_congr_left fun _ => eq_comm)

/-- An operator that does not take the operand between it and another leaves it to the other. -/
theorem not_bindsLeft_iff {waiting : Operator} : bindsLeft waiting op = false ↔ FitsRight waiting op := by
  rw [← Bool.not_eq_true, bindsLeft_iff, FitsLeft, FitsRight]
  constructor
  · intro h
    rcases Nat.lt_trichotomy waiting.precedence op.precedence with hlt | heq | hgt
    · exact .inl hlt
    · refine .inr ⟨heq, ?_⟩
      rw [isRightAssoc_of_precedence heq]
      exact eq_true_of_ne_false fun hf => h (.inr ⟨heq.symm, hf⟩)
    · exact absurd (.inl hgt) h
  · rintro (hlt | ⟨heq, hr⟩) (hlt' | ⟨heq', hl⟩)
    · omega
    · omega
    · omega
    · rw [isRightAssoc_of_precedence heq, hl] at hr
      cases hr

theorem FitsLeft.of_right (hq : FitsLeft p q) (hr : FitsRight q r) : FitsLeft p r := by
  rcases hq with hq | ⟨heq, hl⟩
  · rcases hr with hr | ⟨hr, -⟩ <;> exact .inl (by omega)
  · rcases hr with hr | ⟨-, hr⟩
    · exact .inl (by omega)
    · rw [← isRightAssoc_of_precedence heq, hl] at hr
      cases hr

theorem FitsRight.of_left (hq : FitsRight p q) (hr : FitsLeft q r) : FitsRight p r := by
  rcases hq with hq | ⟨heq, hl⟩
  · rcases hr with hr | ⟨hr, -⟩ <;> exact .inl (by omega)
  · rcases hr with hr | ⟨-, hr⟩
    · exact .inl (by omega)
    · rw [← isRightAssoc_of_precedence heq, hl] at hr
      cases hr

/-- Logical operators bind less tightly than all others. -/
theorem isLogical_iff : op.isLogical = true ↔ op.precedence ≤ 3 := by
  cases op <;> decide

theorem precedence_le_of_fitsLeft (h : FitsLeft p q) : p.precedence ≤ q.precedence := by
  rcases h with h | h <;> omega

theorem precedence_le_of_fitsRight (h : FitsRight p q) : p.precedence ≤ q.precedence := by
  rcases h with h | h <;> omega

/-! ## There is one grouping that respects precedence -/

namespace Grouping

/-- Puts an operator and an operand behind a grouping: around it, or into its right side. -/
def extend : Grouping α → Operator → α → Grouping α
  | leaf a, op, b => join op (leaf a) (leaf b)
  | join p lhs rhs, op, b =>
    if bindsLeft p op then join op (join p lhs rhs) (leaf b) else join p lhs (rhs.extend op b)

/-- The grouping of a sequence. -/
def ofSequence (first : α) (tail : List (Operator × α)) : Grouping α :=
  tail.foldl (fun g item => g.extend item.1 item.2) (leaf first)

@[simp] theorem first_extend (g : Grouping α) (op : Operator) (b : α) : (g.extend op b).first = g.first := by
  induction g with
  | leaf a => rfl
  | join p lhs rhs _ _ =>
    rw [extend]
    split <;> rfl

@[simp] theorem tail_extend (g : Grouping α) (op : Operator) (b : α) : (g.extend op b).tail = g.tail ++ [(op, b)] := by
  induction g with
  | leaf a => rfl
  | join p lhs rhs _ ih =>
    rw [extend]
    split
    · rfl
    · simp [tail, ih]

theorem root?_extend {b : α} (h : q ∈ (g.extend op b).root?) : q = op ∨ q ∈ g.root? := by
  cases g with
  | leaf a => exact .inl (Option.some.inj h).symm
  | join p lhs rhs =>
    rw [extend] at h
    split at h
    · exact .inl (Option.some.inj h).symm
    · exact .inr h

theorem respects_extend (h : g.Respects) (op : Operator) (b : α) : (g.extend op b).Respects := by
  induction g with
  | leaf a => exact ⟨⟨trivial, by simp [root?]⟩, trivial, by simp [root?]⟩
  | join p lhs rhs _ ih =>
    rw [extend]
    split
    case isTrue hb =>
      refine ⟨⟨h, fun q hq => ?_⟩, trivial, by simp [root?]⟩
      cases hq
      exact bindsLeft_iff.mp hb
    case isFalse hb =>
      obtain ⟨hl, hr, hrr⟩ := h
      refine ⟨hl, ih hr, fun q hq => ?_⟩
      rcases root?_extend hq with rfl | hq
      · exact not_bindsLeft_iff.mp (eq_false_of_ne_true hb)
      · exact hrr q hq

theorem ofSequence_spec (first : α) (tail : List (Operator × α)) :
    (ofSequence first tail).Respects ∧ (ofSequence first tail).first = first ∧ (ofSequence first tail).tail = tail := by
  have go : ∀ (tail : List (Operator × α)) (g : Grouping α), g.Respects →
      (tail.foldl (fun g item => g.extend item.1 item.2) g).Respects ∧
        (tail.foldl (fun g item => g.extend item.1 item.2) g).first = g.first ∧
        (tail.foldl (fun g item => g.extend item.1 item.2) g).tail = g.tail ++ tail := by
    intro tail
    induction tail with
    | nil => intro g hg; exact ⟨hg, rfl, (List.append_nil _).symm⟩
    | cons item more ih =>
      intro g hg
      obtain ⟨hr, hf, ht⟩ := ih (g.extend item.1 item.2) (respects_extend hg _ _)
      refine ⟨hr, hf.trans (first_extend ..), ht.trans ?_⟩
      rw [tail_extend, List.append_assoc]
      rfl
  exact go tail (leaf first) trivial

def operands (g : Grouping α) : List α := g.first :: g.tail.map (·.2)

theorem operands_join (op : Operator) (lhs rhs : Grouping α) : (join op lhs rhs).operands = lhs.operands ++ rhs.operands := by
  simp [operands, first, tail]

theorem operands_ofSequence (first : α) (tail : List (Operator × α)) :
    (ofSequence first tail).operands = first :: tail.map (·.2) := by
  simp [operands, ofSequence_spec first tail]

end Grouping

/-! ## One pass -/

section Shunt

variable [Monad m] (b : Operator → α → α → m α)

theorem collapse_of_fitsRight {waiting : List (α × Operator)}
    (h : ∀ w ∈ waiting.head?, FitsRight w.2 op) (last : α) : collapse b op waiting last = pure (waiting, last) := by
  cases waiting with
  | nil => rfl
  | cons w outer =>
    obtain ⟨lhs, w⟩ := w
    rw [collapse, if_neg]
    rw [not_bindsLeft_iff.mpr (h (lhs, w) rfl)]
    decide

variable [LawfulMonad m]

/-- An operand with its operator is joined to the next one, unless an operator follows that binds tighter. -/
theorem shunt_join {more : List (Operator × α)} (h : ∀ item ∈ more.head?, FitsLeft item.1 op)
    (lhs rhs : α) (waiting : List (α × Operator)) :
    shunt b ((lhs, op) :: waiting) rhs more = b op lhs rhs >>= fun joined => shunt b waiting joined more := by
  cases more with
  | nil => rfl
  | cons item more =>
    obtain ⟨next, x⟩ := item
    simp only [shunt]
    rw [collapse, if_pos (bindsLeft_iff.mpr (h (next, x) rfl)), bind_assoc]

/-- **One pass over a grouping that respects precedence builds it.** What waits in front does not bind as tightly, and
what follows does not either. -/
theorem shunt_grouping (g : Grouping α) (h : g.Respects) (waiting : List (α × Operator)) (more : List (Operator × α))
    (hw : ∀ w ∈ waiting.head?, ∀ q ∈ g.root?, FitsRight w.2 q)
    (hm : ∀ item ∈ more.head?, ∀ q ∈ g.root?, FitsLeft item.1 q) :
    shunt b waiting g.first (g.tail ++ more) = g.build b >>= fun a => shunt b waiting a more := by
  induction g generalizing waiting more with
  | leaf a => simp [Grouping.first, Grouping.tail, Grouping.build]
  | join op lhs rhs ihl ihr =>
    obtain ⟨⟨hl, hlr⟩, hr, hrr⟩ := h
    have hw' : ∀ w ∈ waiting.head?, FitsRight w.2 op := fun w hmem => hw w hmem op rfl
    have hm' : ∀ item ∈ more.head?, FitsLeft item.1 op := fun item hmem => hm item hmem op rfl
    have left : ∀ behind : List (Operator × α), shunt b waiting lhs.first (lhs.tail ++ (op, rhs.first) :: behind) =
        lhs.build b >>= fun l => shunt b ((l, op) :: waiting) rhs.first behind := fun behind => by
      rw [ihl hl waiting _ (fun w hmem q hq => (hw' w hmem).of_left (hlr q hq)) fun item hmem q hq => ?_]
      · refine bind_congr fun l => ?_
        rw [shunt, collapse_of_fitsRight b hw', pure_bind]
      · cases hmem
        exact hlr q hq
    have right : ∀ l : α, shunt b ((l, op) :: waiting) rhs.first (rhs.tail ++ more) =
        rhs.build b >>= fun r => b op l r >>= fun joined => shunt b waiting joined more := fun l => by
      rw [ihr hr _ more (fun w hmem q hq => ?_) fun item hmem q hq => (hm' item hmem).of_right (hrr q hq)]
      · exact bind_congr fun r => shunt_join b hm' l r waiting
      · cases hmem
        exact hrr q hq
    simp only [Grouping.first, Grouping.tail, Grouping.build, List.append_assoc, List.cons_append, bind_assoc]
    rw [left]
    exact bind_congr right

/-- A pass over the sequence of a grouping builds it. -/
theorem shunt_eq_build (h : g.Respects) : shunt b [] g.first g.tail = g.build b := by
  have hs := shunt_grouping b g h [] [] (by simp) (by simp)
  rw [List.append_nil] at hs
  rw [hs]
  exact bind_pure _

end Shunt

namespace Grouping

def map (f : α → β) : Grouping α → Grouping β
  | leaf a => leaf (f a)
  | join op lhs rhs => join op (lhs.map f) (rhs.map f)

@[simp] theorem first_map (f : α → β) (g : Grouping α) : (g.map f).first = f g.first := by
  induction g with
  | leaf a => rfl
  | join op lhs rhs ihl _ => exact ihl

@[simp] theorem tail_map (f : α → β) (g : Grouping α) : (g.map f).tail = g.tail.map fun item => (item.1, f item.2) := by
  induction g with
  | leaf a => rfl
  | join op lhs rhs ihl ihr => simp [map, tail, ihl, ihr]

theorem root?_map (f : α → β) (g : Grouping α) : (g.map f).root? = g.root? := by
  cases g <;> rfl

theorem respects_map {f : α → β} : (g.map f).Respects ↔ g.Respects := by
  induction g with
  | leaf a => exact Iff.rfl
  | join op lhs rhs ihl ihr => simp only [map, Respects, root?_map, ihl, ihr]

/-- Joining operands into a grouping gives the grouping back. -/
theorem build_join (g : Grouping α) : (g.map leaf).build (m := Id) join = g := by
  induction g with
  | leaf a => rfl
  | join op lhs rhs ihl ihr =>
    change join op ((lhs.map leaf).build (m := Id) join) ((rhs.map leaf).build (m := Id) join) = _
    rw [ihl, ihr]

/-- **A sequence has one grouping that respects precedence.** -/
theorem eq_of_respects {g' : Grouping α} (h : g.Respects) (h' : g'.Respects) (hfirst : g.first = g'.first)
    (htail : g.tail = g'.tail) : g = g' := by
  have one : ∀ {g : Grouping α}, g.Respects →
      shunt (m := Id) join [] (leaf g.first) (g.tail.map fun item => (item.1, leaf item.2)) = g := fun {g} h => by
    have hs := shunt_eq_build (m := Id) join (respects_map (f := leaf).mpr h)
    rw [first_map, tail_map, build_join] at hs
    exact hs
  rw [← one h, ← one h', hfirst, htail]

end Grouping

/-! ## Computations that can change places with others -/

/-- A computation that can change places with every other. -/
def Central [Monad m] (x : m α) : Prop :=
  ∀ {β γ : Type} (y : m β) (k : α → β → m γ), (x >>= fun a => y >>= k a) = y >>= fun b => x >>= fun a => k a b

namespace Central

variable [Monad m] [LawfulMonad m]

theorem pure (a : α) : Central (pure a : m α) := fun y k => by simp

theorem bind {x : m α} {f : α → m β} (hx : Central x) (hf : ∀ a, Central (f a)) : Central (x >>= f) := by
  intro γ δ y k
  calc x >>= f >>= (fun b => y >>= k b)
      = x >>= fun a => y >>= fun c => f a >>= fun b => k b c := by
        rw [bind_assoc]
        exact bind_congr fun a => hf a y k
    _ = y >>= fun c => x >>= fun a => f a >>= fun b => k b c := hx y _
    _ = y >>= fun c => x >>= f >>= fun b => k b c := by simp only [bind_assoc]

theorem build {b : Operator → α → α → m α} (h : g.All fun op => ∀ l r, Central (b op l r)) : Central (g.build b) := by
  induction g with
  | leaf a => exact pure a
  | join op lhs rhs ihl ihr => exact bind (ihl h.2.1) fun l => bind (ihr h.2.2) fun r => h.1 l r

end Central

/-! ## Two passes -/

namespace Grouping

/-- The runs between logical operators, as the operands of these. -/
def logical : Grouping α → Grouping (Grouping α)
  | leaf a => leaf (leaf a)
  | join op lhs rhs => if op.isLogical then join op lhs.logical rhs.logical else leaf (join op lhs rhs)

/-- Every operand passes a test. -/
def Operands (p : α → Prop) : Grouping α → Prop
  | leaf a => p a
  | join _ lhs rhs => lhs.Operands p ∧ rhs.Operands p

/-- A grouping whose operands are groupings, as one. -/
def flatten : Grouping (Grouping α) → Grouping α
  | leaf g => g
  | join op lhs rhs => join op lhs.flatten rhs.flatten

/-- Replaces the operands from left to right. -/
def traverse [Monad m] (f : α → m β) : Grouping α → m (Grouping β)
  | leaf a => leaf <$> f a
  | join op lhs rhs => do
    let l ← lhs.traverse f
    let r ← rhs.traverse f
    pure (join op l r)

theorem flatten_logical (g : Grouping α) : g.logical.flatten = g := by
  induction g with
  | leaf a => rfl
  | join op lhs rhs ihl ihr =>
    rw [logical]
    split
    · rw [flatten, ihl, ihr]
    · rfl

theorem all_logical (g : Grouping α) : g.logical.All fun op => op.isLogical = true := by
  induction g with
  | leaf a => trivial
  | join op lhs rhs ihl ihr =>
    rw [logical]
    split
    case isTrue hop => exact ⟨hop, ihl, ihr⟩
    case isFalse => trivial

theorem root?_logical (h : q ∈ g.logical.root?) : q ∈ g.root? := by
  cases g with
  | leaf a => cases h
  | join op lhs rhs =>
    rw [logical] at h
    split at h
    · exact h
    · cases h

theorem respects_logical (h : g.Respects) : g.logical.Respects := by
  induction g with
  | leaf a => trivial
  | join op lhs rhs ihl ihr =>
    obtain ⟨⟨hl, hlr⟩, hr, hrr⟩ := h
    rw [logical]
    split
    · exact ⟨⟨ihl hl, fun q hq => hlr q (root?_logical hq)⟩, ihr hr, fun q hq => hrr q (root?_logical hq)⟩
    · trivial

theorem all_not_logical (h : g.Respects) (hroot : ∀ q ∈ g.root?, q.isLogical = false) :
    g.All fun op => op.isLogical = false := by
  induction g with
  | leaf a => trivial
  | join op lhs rhs ihl ihr =>
    obtain ⟨⟨hl, hlr⟩, hr, hrr⟩ := h
    have hop := hroot op rfl
    have tighter : ∀ {q : Operator}, op.precedence ≤ q.precedence → q.isLogical = false := fun {q} hq => by
      have hop' : ¬ op.precedence ≤ 3 := fun hle => by rw [isLogical_iff.mpr hle] at hop; cases hop
      exact eq_false_of_ne_true fun hq' => hop' (by have := isLogical_iff.mp hq'; omega)
    exact ⟨hop, ihl hl fun q hq => tighter (precedence_le_of_fitsLeft (hlr q hq)),
      ihr hr fun q hq => tighter (precedence_le_of_fitsRight (hrr q hq))⟩

/-- The runs between logical operators respect precedence and hold no logical operator. -/
theorem operands_logical (h : g.Respects) :
    g.logical.Operands fun run => run.Respects ∧ run.All fun op => op.isLogical = false := by
  induction g with
  | leaf a => exact ⟨trivial, trivial⟩
  | join op lhs rhs ihl ihr =>
    rw [logical]
    split
    case isTrue => exact ⟨ihl h.1.1, ihr h.2.1⟩
    case isFalse hop =>
      refine ⟨h, all_not_logical h fun q hq => ?_⟩
      cases hq
      exact eq_false_of_ne_true hop

theorem all_tail {p : Operator → Prop} (h : g.All p) : ∀ item ∈ g.tail, p item.1 := by
  induction g with
  | leaf a => simp [tail]
  | join op lhs rhs ihl ihr =>
    intro item hmem
    rcases List.mem_append.mp hmem with hmem | hmem
    · exact ihl h.2.1 item hmem
    · rcases List.mem_cons.mp hmem with rfl | hmem
      · exact h.1
      · exact ihr h.2.2 item hmem

theorem operands_of_sequence {p : α → Prop} (hfirst : p g.first) (htail : ∀ item ∈ g.tail, p item.2) : g.Operands p := by
  induction g with
  | leaf a => exact hfirst
  | join op lhs rhs ihl ihr =>
    refine ⟨ihl hfirst fun item hitem => ?_, ihr ?_ fun item hitem => ?_⟩
    · exact htail item (List.mem_append_left _ hitem)
    · exact htail (op, rhs.first) (List.mem_append_right _ (List.mem_cons_self ..))
    · exact htail item (List.mem_append_right _ (List.mem_cons_of_mem _ hitem))

/-- What follows a traversal may use that the operators are still the same. -/
theorem traverse_congr [Monad m] [LawfulMonad m] {f : α → m β} {k k' : Grouping β → m γ}
    (h : ∀ g' : Grouping β, g'.map (fun _ => ()) = g.map (fun _ => ()) → k g' = k' g') :
    g.traverse f >>= k = g.traverse f >>= k' := by
  induction g generalizing k k' with
  | leaf a =>
    simp only [traverse, bind_map_left]
    exact bind_congr fun a => h (leaf a) rfl
  | join op lhs rhs ihl ihr =>
    simp only [traverse, bind_assoc, pure_bind]
    refine ihl fun l hl => ihr fun r hr => h (join op l r) ?_
    rw [map, map, hl, hr]

theorem respects_congr {g' : Grouping β} (h : g'.map (fun _ => ()) = g.map fun _ => ()) (hg : g.Respects) :
    g'.Respects :=
  respects_map.mp (h ▸ respects_map.mpr hg)

theorem all_map {p : Operator → Prop} {f : α → β} : (g.map f).All p ↔ g.All p := by
  induction g with
  | leaf a => exact Iff.rfl
  | join op lhs rhs ihl ihr => simp only [map, All, ihl, ihr]

theorem all_congr {p : Operator → Prop} {g' : Grouping β}
    (h : g'.map (fun _ => ()) = g.map fun _ => ()) (hg : g.All p) : g'.All p :=
  all_map.mp (h ▸ all_map.mpr hg)

end Grouping

section Fold

variable [Monad m] (b : Operator → α → α → m α)

/-- What the runs behind the first one are. -/
def laterRuns : List (Operator × α) → m (List (Operator × α))
  | [] => pure []
  | (op, rhs) :: more => do
    let (next, others) ← runs b rhs [] more
    pure ((op, next) :: others)

theorem runs_append {first : α} {xs : List (Operator × α)} (h : ∀ item ∈ xs, item.1.isLogical = false)
    (run more : List (Operator × α)) : runs b first run (xs ++ more) = runs b first (xs.reverse ++ run) more := by
  induction xs generalizing run with
  | nil => rfl
  | cons item xs ih =>
    obtain ⟨op, rhs⟩ := item
    have hop : op.isLogical = false := h (op, rhs) List.mem_cons_self
    rw [List.cons_append, runs, hop, if_neg Bool.false_ne_true, ih fun item hmem => h item (List.mem_cons_of_mem _ hmem)]
    simp

variable [LawfulMonad m]

theorem runs_eq {more : List (Operator × α)} (h : ∀ item ∈ more.head?, item.1.isLogical = true) (first : α)
    (run : List (Operator × α)) : runs b first run more =
      shunt b [] first run.reverse >>= fun joined => laterRuns b more >>= fun others => pure (joined, others) := by
  cases more with
  | nil => simp [runs, laterRuns]
  | cons item more =>
    obtain ⟨op, rhs⟩ := item
    rw [runs, if_pos (h (op, rhs) rfl)]
    simp [laterRuns]

/-- The first pass builds the runs, from left to right. -/
theorem runs_flatten (s : Grouping (Grouping α)) (hs : s.All fun op => op.isLogical = true)
    (hruns : s.Operands fun run => run.Respects ∧ run.All fun op => op.isLogical = false)
    (more : List (Operator × α)) (hm : ∀ item ∈ more.head?, item.1.isLogical = true) :
    runs b s.flatten.first [] (s.flatten.tail ++ more) =
      s.traverse (Grouping.build b) >>= fun s' => laterRuns b more >>= fun others =>
        pure (s'.first, s'.tail ++ others) := by
  induction s generalizing more with
  | leaf run =>
    rw [Grouping.flatten, runs_append b (Grouping.all_tail hruns.2), runs_eq b hm]
    rw [List.append_nil, List.reverse_reverse, shunt_eq_build b hruns.1]
    simp [Grouping.traverse, Grouping.first, Grouping.tail]
  | join op lhs rhs ihl ihr =>
    obtain ⟨hop, hl, hr⟩ := hs
    have hstart : ∀ item ∈ ((op, rhs.flatten.first) :: (rhs.flatten.tail ++ more)).head?, item.1.isLogical = true := by
      intro item hmem
      cases hmem
      exact hop
    simp only [Grouping.flatten, Grouping.first, Grouping.tail, List.append_assoc, List.cons_append]
    rw [ihl hl hruns.1 _ hstart, laterRuns, ihr hr hruns.2 more hm]
    simp [Grouping.traverse, Grouping.first, Grouping.tail]

/-- The second pass can be taken apart and put between the runs. -/
theorem build_flatten {s : Grouping (Grouping α)} (h : s.All fun op => ∀ l r, Central (b op l r)) :
    (s.traverse (Grouping.build b) >>= fun s' => s'.build b) = s.flatten.build b := by
  induction s with
  | leaf run => simp [Grouping.traverse, Grouping.build, Grouping.flatten]
  | join op lhs rhs ihl ihr =>
    obtain ⟨hop, hl, hr⟩ := h
    calc (Grouping.join op lhs rhs).traverse (Grouping.build b) >>= (fun s' => s'.build b)
        = lhs.traverse (Grouping.build b) >>= fun l => rhs.traverse (Grouping.build b) >>= fun r =>
            l.build b >>= fun x => r.build b >>= fun y => b op x y := by
          simp [Grouping.traverse, Grouping.build]
      _ = lhs.traverse (Grouping.build b) >>= fun l => l.build b >>= fun x =>
            rhs.traverse (Grouping.build b) >>= fun r => r.build b >>= fun y => b op x y :=
          Grouping.traverse_congr fun l hshape => (Central.build (Grouping.all_congr hshape hl) _ _).symm
      _ = (lhs.traverse (Grouping.build b) >>= fun l => l.build b) >>= fun x =>
            (rhs.traverse (Grouping.build b) >>= fun r => r.build b) >>= fun y => b op x y := by
          simp only [bind_assoc]
      _ = (Grouping.join op lhs rhs).flatten.build b := by rw [ihl hl, ihr hr]; rfl

/-- **Both passes together build the grouping that respects precedence**, from the left and in post-order. -/
theorem fold_eq_build (hb : ∀ op, op.isLogical = true → ∀ l r, Central (b op l r)) (h : g.Respects) :
    fold b g.first g.tail = g.build b := by
  have hall := g.all_logical
  have hcentral : g.logical.All fun op => ∀ l r, Central (b op l r) := by
    generalize g.logical = s at hall
    induction s with
    | leaf a => trivial
    | join op lhs rhs ihl ihr => exact ⟨hb op hall.1, ihl hall.2.1, ihr hall.2.2⟩
  have hruns := runs_flatten b g.logical hall (Grouping.operands_logical h) [] (by simp)
  rw [Grouping.flatten_logical, List.append_nil] at hruns
  rw [fold, hruns]
  calc _ = g.logical.traverse (Grouping.build b) >>= fun s' => shunt b [] s'.first s'.tail := by simp [laterRuns]
    _ = g.logical.traverse (Grouping.build b) >>= fun s' => s'.build b :=
        Grouping.traverse_congr fun s' hshape =>
          shunt_eq_build b (Grouping.respects_congr hshape (Grouping.respects_logical h))
    _ = g.build b := by rw [build_flatten b hcentral, Grouping.flatten_logical]

end Fold

end PathScript.Precedence

namespace PathScript

instance : LawfulMonad CompileM := LawfulMonad.mk' _
  (fun x => by
    funext env st
    change CompileM.bind x CompileM.pure env st = x env st
    unfold CompileM.bind
    cases x env st <;> rfl)
  (fun _ _ => rfl)
  (fun x f g => by
    funext env st
    change CompileM.bind (CompileM.bind x f) g env st = CompileM.bind x (fun a => CompileM.bind (f a) g) env st
    unfold CompileM.bind
    cases x env st <;> rfl)

namespace Compile

open Precedence

/-- A node that needs no more than the options can be made at any time. -/
theorem central_node (span : Span) (egress : Ty) (kind : NodeKind) : Central (node span egress kind) := by
  intro β γ y k
  funext env st
  change CompileM.bind y (k _) env st = CompileM.bind y (fun b => k _ b) env st
  rfl

theorem central_binaryNode {op : Operator} (h : op.isLogical = true) (lhs rhs : Node) : Central (binaryNode op lhs rhs) := by
  cases op with
  | and | or => exact central_node _ _ _
  | _ => cases h

theorem fold_eq (first : Node) (tail : List (Operator × Node)) :
    fold binaryNode first tail = (Grouping.ofSequence first tail).build binaryNode := by
  obtain ⟨hr, hf, ht⟩ := Grouping.ofSequence_spec first tail
  have hfold := fold_eq_build binaryNode (fun _ h => central_binaryNode h) hr
  rwa [hf, ht] at hfold

/-- The fold of a sequence returns what building its precedence tree returns. The tree is the one grouping of the
sequence in which every operand fits to its side; its nodes are built in post-order from the left, up to the first
fault. A single pass over the whole sequence returns the same. -/
theorem fold_builds_precedence_tree (first : Node) (tail : List (Operator × Node)) :
    ∃ g : Grouping Node, (g.Respects ∧ g.first = first ∧ g.tail = tail) ∧
      (∀ g' : Grouping Node, g'.Respects → g'.first = first → g'.tail = tail → g' = g) ∧
      fold binaryNode first tail = g.build binaryNode ∧ shunt binaryNode [] first tail = g.build binaryNode := by
  obtain ⟨hr, hf, ht⟩ := Grouping.ofSequence_spec first tail
  refine ⟨.ofSequence first tail, ⟨hr, hf, ht⟩, fun g' hr' hf' ht' => ?_, ?_, ?_⟩
  · exact Grouping.eq_of_respects hr' hr (hf'.trans hf.symm) (ht'.trans ht.symm)
  · have hfold := fold_eq_build binaryNode (fun _ h => central_binaryNode h) hr
    rwa [hf, ht] at hfold
  · have hshunt := shunt_eq_build binaryNode hr
    rwa [hf, ht] at hshunt

end Compile

end PathScript
