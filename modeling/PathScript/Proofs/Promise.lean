import Mathlib.Order.RelClasses
import PathScript.Proofs.Declared

/-! # Static types as promises

The static type of a node is found from those of its parts, and for most nodes
it can be relied on. The type of a *place* says what is somewhere else: at a
path that is read, in the slot that an assignment writes to, in the class that a
name stands for. Evaluation does not see to it that it is there.

So evaluation is compared with one that has no outcome as soon as a place breaks
its promise; where that one has an outcome, expressions give what their types
promise. -/

namespace PathScript

/-! ## Values that meet a static type -/

/-- A value is what a static type promises: one of the type, or `null` if it may stand for one. The type of which nothing
is known promises nothing. -/
def Value.Meets (v : Value) (ty : Ty) : Prop := ty.isKnown = true → v.Fits ty

instance (v : Value) (ty : Ty) : Decidable (v.Meets ty) := inferInstanceAs (Decidable (_ → _))

/-- A static type covers a value if it is the runtime type of the value, or says nothing. -/
def Ty.Covers (ty : Ty) (v : Value) : Prop := ty = .any ∨ ty = v.typeOf

namespace Value

variable {v : Value} {ty : Ty}

theorem meets_any (v : Value) : v.Meets .any := by
  intro h
  cases h

theorem meets_typeOf (v : Value) : v.Meets v.typeOf := fun _ => v.fits_typeOf

theorem Meets.cast {ty' : Ty} (h : v.Meets ty) (heq : ty' = ty) : v.Meets ty' := heq ▸ h

theorem meets_of_typeOf (h : v.typeOf = ty) : v.Meets ty := h ▸ v.meets_typeOf

theorem Meets.typeOf_eq (h : v.Meets ty) (hknown : ty.isKnown = true) (hnull : ty.isNullable = false) :
    v.typeOf = ty := by
  obtain h | ⟨-, hnullable⟩ := h hknown
  · exact h
  · rw [hnull] at hnullable; cases hnullable

theorem Meets.typeOf_of_isNumeric (h : v.Meets ty) (hn : ty.isNumeric = true) : v.typeOf = ty := by
  cases ty with
  | int | float => exact h.typeOf_eq rfl rfl
  | _ => cases hn

theorem Meets.str_or_null (h : v.Meets .str) : (∃ s, v = .str s) ∨ v = .null := by
  obtain h | ⟨h, -⟩ := h rfl
  · cases v with
    | str s => exact .inl ⟨s, rfl⟩
    | _ => cases h
  · exact .inr h

end Value

theorem Ty.Covers.meets {v : Value} {ty : Ty} (h : ty.Covers v) : v.Meets ty := by
  rcases h with rfl | rfl
  · exact v.meets_any
  · exact v.meets_typeOf

/-! ## Operators -/

/-- However a computation ends, the states before and after are related so. -/
structure Run.Ends {σ ε α : Type} (R : σ → σ → Prop) (x : Run σ ε α) : Prop where
  ok : ∀ {s a t}, x s = .ok a t → R s t
  error : ∀ {s e t}, x s = .error e t → R s t

namespace Run.Ends

variable {σ ε α β : Type} {R : σ → σ → Prop}

section Reads

variable [Std.Refl R]

theorem pure (a : α) : Ends R (pure a : Run σ ε α) := ⟨fun h => by cases h; exact refl_of R _, nofun⟩

theorem fail (e : ε) : Ends R (Run.fail e : Run σ ε α) := ⟨nofun, fun h => by cases h; exact refl_of R _⟩

theorem get : Ends R (Run.get : Run σ ε σ) := ⟨fun h => by cases h; exact refl_of R _, nofun⟩

theorem query (g : σ → Option α) : Ends R (Run.query g : Run σ ε α) := by
  constructor <;> intro s _ t h <;> unfold Run.query at h <;> split at h <;> cases h
  exact refl_of R _

theorem ofExcept (x : Except ε α) : Ends R (Run.ofExcept x : Run σ ε α) := by
  cases x with
  | ok a => exact .pure a
  | error e => exact .fail e

theorem of_eq {x : Run σ ε α} (hx : x.Ends Eq) : x.Ends R :=
  ⟨fun h => hx.ok h ▸ refl_of R _, fun h => hx.error h ▸ refl_of R _⟩

end Reads

theorem bind [IsTrans σ R] {x : Run σ ε α} {k : α → Run σ ε β} (hx : x.Ends R) (hk : ∀ a, (k a).Ends R) :
    (x >>= k).Ends R := by
  constructor
  · intro s b u h
    obtain ⟨a, t, ha, hb⟩ := bind_eq_ok.mp h
    exact trans_of R (hx.ok ha) ((hk a).ok hb)
  · intro s e u h
    obtain ha | ⟨a, t, ha, he⟩ := bind_eq_error.mp h
    · exact hx.error ha
    · exact trans_of R (hx.ok ha) ((hk a).error he)

end Run.Ends

theorem Ty.promote_eq_any_or (a b : Ty) : a.promote b = .any ∨ a.isNumeric = true ∧ b.isNumeric = true := by
  unfold promote
  split
  · exact .inr ⟨rfl, rfl⟩
  · exact .inr ⟨rfl, rfl⟩
  · exact .inr ⟨rfl, rfl⟩
  · exact .inr ⟨rfl, rfl⟩
  · exact .inl rfl

namespace Operator

variable {op : Operator} {l r v : Value} {tl tr : Ty} {h h' : Heap}

theorem typeOf_of_checked {n : Option Int64} (hv : checked n = .ok v) : v.typeOf = .int := by
  cases n with
  | none => cases hv
  | some n => cases hv; rfl

theorem typeOf_of_intArithmetic {a b : Int64} (hv : op.intArithmetic a b = .ok v) : v.typeOf = .int := by
  unfold intArithmetic at hv
  split at hv
  · exact typeOf_of_checked hv
  · exact typeOf_of_checked hv
  · exact typeOf_of_checked hv
  · split at hv
    · cases hv
    · exact typeOf_of_checked hv
  · split at hv
    · cases hv
    · exact typeOf_of_checked hv

theorem int_or_float (hv : v.typeOf.isNumeric = true) : (∃ n, v = .int n) ∨ ∃ x, v = .float x := by
  cases v with
  | int n => exact .inl ⟨n, rfl⟩
  | float x => exact .inr ⟨x, rfl⟩
  | _ => cases hv

/-- Arithmetic gives a number of the type that the types of the operands promote to. -/
theorem covers_arithmetic (hl : l.Meets tl) (hr : r.Meets tr) (hv : op.arithmetic l r = .ok v) :
    (tl.promote tr).Covers v := by
  obtain hany | ⟨hnl, hnr⟩ := Ty.promote_eq_any_or tl tr
  · exact .inl hany
  have htl := hl.typeOf_of_isNumeric hnl
  have htr := hr.typeOf_of_isNumeric hnr
  subst htl htr
  right
  obtain ⟨a, rfl⟩ | ⟨x, rfl⟩ := int_or_float hnl <;> obtain ⟨b, rfl⟩ | ⟨y, rfl⟩ := int_or_float hnr
  · exact (typeOf_of_intArithmetic hv).symm
  all_goals
    cases hv
    rfl

theorem ne_null_of_arithmetic (hv : op.arithmetic l r = .ok v) : l ≠ .null ∧ r ≠ .null := by
  constructor
  · rintro rfl
    cases hv
  · rintro rfl
    cases l <;> cases hv

theorem covers_power (hl : l.Meets tl) (hr : r.Meets tr) (hv : power l r = .ok v) : (pow.resultType tl tr).Covers v := by
  change (if tl = .int && tr = .int then Ty.any else if tl.isNumeric && tr.isNumeric then .float else .any).Covers v
  split
  next => exact .inl rfl
  next hints =>
    split
    next hnumeric =>
      obtain ⟨hnl, hnr⟩ := (Bool.and_eq_true _ _).mp hnumeric
      have htl := hl.typeOf_of_isNumeric hnl
      have htr := hr.typeOf_of_isNumeric hnr
      subst htl htr
      right
      obtain ⟨a, rfl⟩ | ⟨x, rfl⟩ := int_or_float hnl <;> obtain ⟨b, rfl⟩ | ⟨y, rfl⟩ := int_or_float hnr
      · exact absurd rfl hints
      all_goals
        cases hv
        rfl
    next => exact .inl rfl

theorem typeOf_of_concat (hv : (do let s ← l.display; pure (.str (s ++ (← r.display))) : HeapM Value) h = .ok v h') :
    v.typeOf = .str := by
  obtain ⟨s, _, -, hv⟩ := Run.bind_eq_ok.mp hv
  obtain ⟨t, _, -, hv⟩ := Run.bind_eq_ok.mp hv
  cases hv
  rfl

/-- `+` makes a text, of operands that are not both numbers, or does arithmetic, on operands that are no texts. -/
theorem add_cases (hv : add.apply l r h = .ok v h') :
    v.typeOf = .str ∧ (l.typeOf.isNumeric && r.typeOf.isNumeric) = false ∨
      add.arithmetic l r = .ok v ∧ l.typeOf ≠ .str ∧ r.typeOf ≠ .str := by
  have arithmetic : ∀ {a b : Value}, (Run.ofExcept (add.arithmetic a b) : HeapM Value) h = .ok v h' →
      add.arithmetic a b = .ok v := fun hv => (Run.ofExcept_eq_ok.mp hv).1
  cases l with
  | str s => exact .inl ⟨typeOf_of_concat hv, rfl⟩
  | char a =>
    cases r with
    | str s => exact .inl ⟨typeOf_of_concat hv, rfl⟩
    | char b => cases hv; exact .inl ⟨rfl, rfl⟩
    | _ => exact .inr ⟨arithmetic hv, by simp [Value.typeOf]⟩
  | _ =>
    cases r with
    | str s => exact .inl ⟨typeOf_of_concat hv, by simp [Value.typeOf, Ty.isNumeric]⟩
    | _ => exact .inr ⟨arithmetic hv, by simp [Value.typeOf]⟩

theorem covers_add (hl : l.Meets tl) (hr : r.Meets tr) (hv : add.apply l r h = .ok v h') :
    (add.resultType tl tr).Covers v := by
  have hresult : add.resultType tl tr = if tl = .str || tr = .str then .str else tl.promote tr := rfl
  rw [hresult]
  obtain ⟨htext, hnumbers⟩ | ⟨hv, hnl, hnr⟩ := add_cases hv
  · split
    · exact .inr htext.symm
    · refine .inl ((Ty.promote_eq_any_or tl tr).resolve_right ?_)
      rintro ⟨hnl, hnr⟩
      rw [hl.typeOf_of_isNumeric hnl, hr.typeOf_of_isNumeric hnr, hnl, hnr] at hnumbers
      cases hnumbers
  · obtain ⟨hl₀, hr₀⟩ := ne_null_of_arithmetic hv
    have no : ∀ {w : Value}, w.Meets .str → w.typeOf ≠ .str → w ≠ .null → False := by
      intro w hw hstr hnull
      obtain ⟨s, rfl⟩ | rfl := hw.str_or_null
      · exact hstr rfl
      · exact hnull rfl
    split
    next hstr =>
      simp only [Bool.or_eq_true, decide_eq_true_eq] at hstr
      rcases hstr with rfl | rfl
      · exact (no hl hnl hl₀).elim
      · exact (no hr hnr hr₀).elim
    next => exact covers_arithmetic hl hr hv

theorem covers_bits (hop : op = .bitAnd ∨ op = .bitXor ∨ op = .bitOr) (hl : l.Meets tl) (hr : r.Meets tr)
    (hv : op.apply l r h = .ok v h') : (op.resultType tl tr).Covers v := by
  have hresult : op.resultType tl tr =
      if tl = .bool && tr = .bool then .bool else if tl = .int && tr = .int then .int else .any := by
    rcases hop with rfl | rfl | rfl <;> rfl
  rw [hresult]
  split
  next hbools =>
    simp only [Bool.and_eq_true, decide_eq_true_eq] at hbools
    obtain ⟨rfl, rfl⟩ := hbools
    have htl := hl.typeOf_eq rfl rfl
    have htr := hr.typeOf_eq rfl rfl
    cases l with
    | bool a =>
      cases r with
      | bool b => rcases hop with rfl | rfl | rfl <;> cases hv <;> exact .inr rfl
      | _ => cases htr
    | _ => cases htl
  next =>
    split
    next hints =>
      simp only [Bool.and_eq_true, decide_eq_true_eq] at hints
      obtain ⟨rfl, rfl⟩ := hints
      have htl := hl.typeOf_eq rfl rfl
      have htr := hr.typeOf_eq rfl rfl
      cases l with
      | int a =>
        cases r with
        | int b => rcases hop with rfl | rfl | rfl <;> cases hv <;> exact .inr rfl
        | _ => cases htr
      | _ => cases htl
    next => exact .inl rfl

/-- The static type of an operator covers what it gives, if the operands are what their types promise. -/
theorem covers_apply (hl : l.Meets tl) (hr : r.Meets tr) (hv : op.apply l r h = .ok v h') :
    (op.resultType tl tr).Covers v := by
  cases op with
  | eq | ne =>
    obtain ⟨b, _, -, hv⟩ := Run.bind_eq_ok.mp hv
    cases hv
    exact .inr rfl
  | lt | gt | le | ge =>
    cases ho : l.compare r with
    | none => simp only [apply, ho] at hv; cases hv
    | some o => simp only [apply, ho] at hv; cases hv; exact .inr rfl
  | add => exact covers_add hl hr hv
  | sub | mul | div | rem =>
    obtain ⟨hv, -⟩ := Run.ofExcept_eq_ok.mp hv
    exact covers_arithmetic hl hr hv
  | pow =>
    obtain ⟨hv, -⟩ := Run.ofExcept_eq_ok.mp hv
    exact covers_power hl hr hv
  | shl | shr | ushr =>
    cases hints : intOperands? l r with
    | none => simp only [apply, hints] at hv; cases hv
    | some ab => simp only [apply, hints] at hv; cases hv; exact .inr rfl
  | bitAnd | bitXor | bitOr => exact covers_bits (by simp) hl hr hv
  | instanceOf | is =>
    cases r with
    | cls c => cases hv; exact .inr rfl
    | _ => cases hv
  | contains =>
    obtain ⟨found, _, -, hv⟩ := Run.bind_eq_ok.mp hv
    cases found with
    | none => cases hv
    | some b => cases hv; exact .inr rfl
  | regexMatch | and | or => cases hv

/-- Static types of operators are sound, whatever is known of the operands. -/
theorem resultType_covers_result (hl : tl.Covers l) (hr : tr.Covers r) (hv : op.apply l r h = .ok v h') :
    (op.resultType tl tr).Covers v := covers_apply hl.meets hr.meets hv

theorem resultType_covers_result_concatenation :
    Ty.any.Covers .null ∧ Ty.str.Covers (.str "a") ∧ add.apply .null (.str "a") .empty = .ok (.str "nulla") .empty ∧
      (add.resultType .any .str).Covers (.str "nulla") := by
  have hl : Ty.any.Covers .null := .inl rfl
  have hr : Ty.str.Covers (.str "a") := .inr rfl
  have hv : add.apply .null (.str "a") .empty = .ok (.str "nulla") .empty := by rfl
  exact ⟨hl, hr, hv, resultType_covers_result hl hr hv⟩

theorem reads_apply (op : Operator) (l r : Value) : (op.apply l r).Ends Eq :=
  Compile.apply_cases op (fun _ _ => .ofExcept _) fun _ hk => .bind (.query _) hk

end Operator

namespace UnaryOp

variable {a v : Value} {ty : Ty}

theorem meets_not (hv : not.apply a = .ok v) : v.Meets .bool := by
  cases a with
  | bool b => cases hv; exact Value.meets_typeOf _
  | _ => cases hv

theorem meets_neg (ha : a.Meets ty) (hv : neg.apply a = .ok v) : v.Meets (if ty.isNumeric then ty else .any) := by
  split
  next hn =>
    have hty := ha.typeOf_of_isNumeric hn
    subst hty
    cases a with
    | int n => exact Value.meets_of_typeOf (Operator.typeOf_of_checked hv)
    | float x => cases hv; exact Value.meets_typeOf _
    | _ => cases hn
  next => exact v.meets_any

end UnaryOp

/-! ## What a static type rests on -/

namespace Node

/-- A place, or what is made at one: a path that is read, and what an assignment, an increment or a `new` gives. Their
static types are about what is somewhere else, and no evaluation sees to it that it is there. -/
def isPlace (n : Node) : Bool :=
  match n.kind with
  | .property _ _ | .increment _ _ _ | .newObject _ _ => true
  | .assignment _ _ _ decl _ => decl.isNone
  | _ => false

/-- The nodes from whose types that of a node is found. -/
def bases (n : Node) : List Node :=
  match n.kind with
  | .unary .neg a | .group a => [a]
  | .binary op l r => if op.isComparison || op.isLogical then [] else [l, r]
  | .ternary _ a b => [a, b]
  | .withItems target _ => [target]
  | .assignment _ _ value (some .any) _ => value.toList
  | .ifChain branches otherwise => branches.map (·.2) ++ otherwise.toList
  | .block stmts _ => stmts.getLast?.toList
  | .returns value => value.toList
  | _ => []

/-- The static type of a node says something, and rests on that of another. -/
inductive RestsOn (p : Node) : Node → Prop where
  | here (known : p.egress.isKnown = true) : RestsOn p p
  | under {n c : Node} (known : n.egress.isKnown = true) (base : c ∈ n.bases) (h : RestsOn p c) : RestsOn p n

end Node

/-! ## Two evaluations that do the same -/

section Concur

variable {α β : Type} {I : Machine → Prop}

/-- Two computations do the same from where something holds of the machine; it holds afterwards, too, and something
else holds of the value. -/
def Concur (I : Machine → Prop) (x y : EvalM α) (P : α → Prop) : Prop :=
  ∀ m, I m → x m = y m ∧ ∀ a m', y m = .ok a m' → I m' ∧ P a

/-- The maps of a heap are there in another, with the same entries. -/
def Heap.KeepsMaps (h h' : Heap) : Prop := ∀ a d, h.maps.get? a = some d → h'.maps.get? a = some d

theorem Heap.KeepsMaps.refl (h : Heap) : h.KeepsMaps h := fun _ _ ha => ha

theorem Heap.keepsMaps_newMap (h : Heap) (d : Dict Value) : h.KeepsMaps (h.newMap d).2 := by
  intro a d' ha
  have hne : a ≠ h.maps.size := by
    rintro rfl
    simp [Table.get?, Table.size] at ha
  exact (Table.get?_alloc h.maps d a).trans ((if_neg hne).trans ha)

/-- A condition on machines that holds on while maps are left alone. -/
def Inert (I : Machine → Prop) : Prop := ∀ m h, I m → m.store.heap.KeepsMaps h → I (m.withHeap h)

namespace Concur

variable {x y x' y' : EvalM α} {k k' : α → EvalM β} {P Q : α → Prop} {R : β → Prop}

theorem pure {a : α} (h : P a) : Concur I (pure a) (pure a) P := by
  intro m hm
  refine ⟨rfl, fun b m' heq => ?_⟩
  cases heq
  exact ⟨hm, h⟩

theorem bind (hx : Concur I x y P) (hk : ∀ a, P a → Concur I (k a) (k' a) R) : Concur I (x >>= k) (y >>= k') R := by
  intro m hm
  obtain ⟨hsame, hok⟩ := hx m hm
  rw [Run.bind_apply, Run.bind_apply, hsame]
  cases hy : y m with
  | ok a m' => exact hk a (hok a m' hy).2 m' (hok a m' hy).1
  | error e m' => exact ⟨rfl, nofun⟩
  | diverged => exact ⟨rfl, nofun⟩

theorem imp (hx : Concur I x y P) (h : ∀ a, P a → Q a) : Concur I x y Q := fun m hm =>
  ⟨(hx m hm).1, fun a m' heq => ⟨((hx m hm).2 a m' heq).1, h a ((hx m hm).2 a m' heq).2⟩⟩

theorem fail (e : EvalError) : Concur I (Run.fail e) (Run.fail e) P := fun _ _ => ⟨rfl, nofun⟩

theorem query (g : Machine → Option α) : Concur I (Run.query g) (Run.query g) fun _ => True := by
  refine fun m hm => ⟨rfl, fun a m' heq => ⟨?_, trivial⟩⟩
  rw [(Run.query_eq_ok.mp heq).2]
  exact hm

theorem get : Concur I Run.get Run.get fun _ => True := by
  refine fun m hm => ⟨rfl, fun a m' heq => ?_⟩
  cases heq
  exact ⟨hm, trivial⟩

theorem modify {g : Machine → Machine} (hg : ∀ m, I m → I (g m)) :
    Concur I (Run.modify g) (Run.modify g) fun _ => True := by
  refine fun m hm => ⟨rfl, fun a m' heq => ?_⟩
  cases heq
  exact ⟨hg m hm, trivial⟩

theorem ite {c : Prop} [Decidable c] (h : c → Concur I x y P) (h' : ¬ c → Concur I x' y' P) :
    Concur I (if c then x else x') (if c then y else y') P := by
  split
  · exact h ‹_›
  · exact h' ‹_›

theorem onHeap (hI : Inert I) (locate : Fault → EvalError) {x : HeapM α} (hreads : x.Ends Eq)
    (hx : ∀ h a h', x h = .ok a h' → P a) : Concur I (EvalM.onHeap locate x) (EvalM.onHeap locate x) P := by
  refine fun m hm => ⟨rfl, fun a m' heq => ?_⟩
  obtain ⟨h, hok, rfl⟩ := EvalM.onHeap_eq_ok.mp heq
  have hheap : h = m.store.heap := (hreads.ok hok).symm
  exact ⟨hI m h hm (hheap ▸ .refl _), hx _ _ _ hok⟩

end Concur

variable (hI : Inert I) {ev ev' : Evaluator} {f : Frame} {n : Node} {typed : Bool}

theorem concur_condition (h : Concur I (ev' f n) (ev f n) fun _ => True) :
    Concur I (Eval.condition ev' f n) (Eval.condition ev f n) fun _ => True := by
  refine h.bind fun v _ => ?_
  cases v with
  | bool b => exact .pure trivial
  | _ => exact (Concur.query _).bind fun _ _ => .fail _

theorem concur_evalAll {ns : List Node} (h : ∀ c ∈ ns, Concur I (ev' f c) (ev f c) fun _ => True) :
    Concur I (Walk.evalAll ev' f ns) (Walk.evalAll ev f ns) fun _ => True := by
  induction ns with
  | nil => exact .pure trivial
  | cons n rest ih =>
    refine (h n (by simp)).bind fun v _ => ?_
    exact (ih fun c hc => h c (by simp [hc])).bind fun _ _ => .pure trivial

theorem concur_evalEntries {entries : List (Node × Node)}
    (h : ∀ e ∈ entries, ∀ c ∈ [e.1, e.2], Concur I (ev' f c) (ev f c) fun _ => True) (d : Dict Value) :
    Concur I (CollectionLiteral.evalEntries ev' f entries d) (CollectionLiteral.evalEntries ev f entries d)
      fun _ => True := by
  induction entries generalizing d with
  | nil => exact .pure trivial
  | cons e rest ih =>
    refine (h e (by simp) e.1 (by simp)).bind fun kv _ => (Concur.query _).bind fun key _ => ?_
    exact (h e (by simp) e.2 (by simp)).bind fun v _ => ih (fun e' he => h e' (by simp [he])) _

include hI

theorem concur_alloc (g : Heap → Value × Heap) {P : Value → Prop} (hg : ∀ h, h.KeepsMaps (g h).2 ∧ P (g h).1) : Concur I
      (EvalM.stepStore fun st =>
        match g st.heap with
        | (v, h) => (v, { st with heap := h }))
      (EvalM.stepStore fun st =>
        match g st.heap with
        | (v, h) => (v, { st with heap := h })) P := by
  refine fun m hm => ⟨rfl, fun v m' heq => ?_⟩
  rw [EvalM.stepStore_apply] at heq
  cases heq
  exact ⟨hI m _ hm (hg _).1, (hg _).2⟩

theorem concur_build {c : CollectionLiteral} (h : ∀ n ∈ c.nodes, Concur I (ev' f n) (ev f n) fun _ => True) :
    Concur I (c.build ev' f) (c.build ev f) (·.Meets c.ty) := by
  cases c with
  | list items =>
    refine (concur_evalAll h).bind fun vs _ => concur_alloc hI (Heap.newList vs.toArray) fun h => ?_
    exact ⟨.refl _, Value.meets_of_typeOf rfl⟩
  | array items =>
    refine (concur_evalAll h).bind fun vs _ => concur_alloc hI (Heap.newArray vs.toArray) fun h => ?_
    exact ⟨.refl _, Value.meets_of_typeOf rfl⟩
  | map entries =>
    have hentries : ∀ e ∈ entries, ∀ c ∈ [e.1, e.2], Concur I (ev' f c) (ev f c) fun _ => True :=
      fun e he c hc => h c (List.mem_flatMap.mpr ⟨e, he, hc⟩)
    refine (concur_evalEntries hentries .empty).bind fun d _ => concur_alloc hI (Heap.newMap d) fun h => ?_
    exact ⟨h.keepsMaps_newMap d, Value.meets_of_typeOf rfl⟩

/-- An expression that is no place, and neither a `with` nor a call, does the same if its parts do, and gives what its
static type promises if those give what theirs promise from which it is found. Containers are built, which interpreted
evaluation does every time. -/
theorem concur_step (hf : f.mode = .interpreted) (hn : IsExpression typed n) (hplace : n.isPlace = false)
    (hplain : ∀ target items, n.kind ≠ .withItems target items) (hcall : ∀ name args, n.kind ≠ .call name args)
    {Q : Node → Value → Prop} (hparts : ∀ c ∈ n.children, Concur I (ev' f c) (ev f c) (Q c)) (fuel : Nat) :
    Concur I (Eval.step ev' fuel f n) (Eval.step ev fuel f n) fun v =>
      (n.egress.isKnown = true → ∀ c ∈ n.bases, ∀ w, Q c w → w.Meets c.egress) → v.Meets n.egress := by
  have hany : ∀ c ∈ n.children, Concur I (ev' f c) (ev f c) fun _ => True :=
    fun c hc => (hparts c hc).imp fun _ _ => trivial
  cases hn with
  | literal egress => exact .pure fun _ => (Value.meets_typeOf _).cast egress
  | emptyWord egress => exact .pure fun _ => (Value.meets_typeOf .null).cast egress
  | property | assignment | increment | newObject => cases hplace
  | @not i a operand egress =>
    refine (hany a (by simp [Node.children])).bind fun v _ => .onHeap hI _ (.ofExcept _) fun h w h' hw _ => ?_
    exact (UnaryOp.meets_not (Run.ofExcept_eq_ok.mp hw).1).cast egress
  | @neg i a operand egress =>
    refine (hparts a (by simp [Node.children])).bind fun v hv => .onHeap hI _ (.ofExcept _) ?_
    intro h w h' hw hbases hknown
    have ha : v.Meets a.egress := hbases hknown a (by simp [Node.bases]) v hv
    exact (UnaryOp.meets_neg ha (Run.ofExcept_eq_ok.mp hw).1).cast egress hknown
  | @binary i op l r lhs rhs egress =>
    refine (hparts l (by simp [Node.children])).bind fun v hv => ?_
    refine (hparts r (by simp [Node.children])).bind fun w hw => .onHeap hI _ (op.reads_apply v w) ?_
    refine fun h u h' hu hbases hknown => Value.Meets.cast ?_ egress hknown
    by_cases hop : (op.isComparison || op.isLogical) = true
    · exact (Operator.covers_apply v.meets_any w.meets_any hu).meets.cast (by simp only [Operator.resultType, if_pos hop])
    · have hpair : (Node.mk i (.binary op l r)).bases = [l, r] := by simp only [Node.bases, if_neg hop]
      have hl : v.Meets l.egress := hbases hknown l (by simp [hpair]) v hv
      have hr : w.Meets r.egress := hbases hknown r (by simp [hpair]) w hw
      exact (Operator.covers_apply hl hr hu).meets
  | @and i l r lhs rhs egress =>
    have hbool : ∀ b : Bool, (Value.bool b).Meets i.egress := fun b => (Value.meets_typeOf _).cast egress
    refine (concur_condition (hany l (by simp [Node.children]))).bind fun _ _ => .ite (fun _ => ?_) fun _ => ?_
    · exact (concur_condition (hany r (by simp [Node.children]))).bind fun _ _ => .pure fun _ => hbool _
    · exact .pure fun _ => hbool _
  | @or i l r lhs rhs egress =>
    have hbool : ∀ b : Bool, (Value.bool b).Meets i.egress := fun b => (Value.meets_typeOf _).cast egress
    refine (concur_condition (hany l (by simp [Node.children]))).bind fun _ _ => .ite (fun _ => ?_) fun _ => ?_
    · exact .pure fun _ => hbool _
    · exact (concur_condition (hany r (by simp [Node.children]))).bind fun _ _ => .pure fun _ => hbool _
  | @ternary i c a b cond yes no egress =>
    have htypes : i.egress.isKnown = true → i.egress = a.egress ∧ i.egress = b.egress := by
      rw [egress]
      split
      next hsame => exact fun _ => ⟨rfl, hsame⟩
      next => simp [Ty.isKnown]
    refine (concur_condition (hany c (by simp [Node.children]))).bind fun _ _ => .ite (fun _ => ?_) fun _ => ?_
    · refine (hparts a (by simp [Node.children])).imp fun v hv hbases hknown => ?_
      exact (hbases hknown a (by simp [Node.bases]) v hv).cast (htypes hknown).1 hknown
    · refine (hparts b (by simp [Node.children])).imp fun v hv hbases hknown => ?_
      exact (hbases hknown b (by simp [Node.bases]) v hv).cast (htypes hknown).2 hknown
  | @emptyTest i a negate subject egress =>
    refine (hany a (by simp [Node.children])).bind fun v _ => Concur.get.bind fun _ _ => .pure fun _ => ?_
    exact (Value.meets_typeOf (.bool _)).cast egress
  | @regexMatch i a p compiled subject pattern egress =>
    have hbool : ∀ b : Bool, (Value.bool b).Meets i.egress := fun b => (Value.meets_typeOf _).cast egress
    refine (hany a (by simp [Node.children])).bind fun v _ => .ite (fun _ => .pure fun _ => hbool _) fun _ => ?_
    refine (Concur.query _).bind fun text _ => ?_
    simp only [hf]
    refine (hany p (by simp [Node.children])).bind fun w _ => (Concur.query _).bind fun pattern _ => ?_
    cases Regex.whole pattern with
    | ok r => exact .pure fun _ => hbool _
    | error e => exact .fail _
  | withItems => exact absurd rfl (hplain _ _)
  | call => exact absurd rfl (hcall _ _)
  | @collection i literal site parts egress =>
    have hinterpreted : f.isInterpreted = true := by rw [Frame.isInterpreted, hf]; rfl
    simp only [Eval.step, Access.buildCollection, hinterpreted, if_true]
    exact (concur_build hI hany).imp fun v hv _ => hv.cast egress
  | @group i a inner egress =>
    refine (hparts a (by simp [Node.children])).imp fun v hv hbases hknown => ?_
    exact (hbases hknown a (by simp [Node.bases]) v hv).cast egress hknown

end Concur

/-! ## Places that keep their promises -/

open Classical in
/-- A node, with fuel, where places that are asked to give what their static types promise. Where one does not, there is
no outcome. -/
noncomputable def Eval.kept (asked : Node → Prop) : Nat → Evaluator
  | 0 => node 0
  | fuel + 1 => fun f n => do
    let v ← step (kept asked fuel) fuel f n
    if asked n ∧ ¬ v.Meets n.egress then Run.never else pure v

/-- A program, where places that are asked to give what their static types promise. -/
noncomputable def Eval.programKept (asked : Node → Prop) (fuel : Nat) (f : Frame) (root : Node) : EvalM Value :=
  activation (unscoped (kept asked fuel) f root)

/-- A place that the static type of a program rests on: that of its last statement, or of a `return` in it. -/
def Node.Grounds (root p : Node) : Prop :=
  p.isPlace = true ∧ (p.RestsOn root ∨ ∃ r, r.Within root ∧ (∃ value, r.kind = .returns value) ∧ p.RestsOn r)

section Promised

variable {asked : Node → Prop} {typed : Bool} {α : Type}

theorem Eval.node_zero_eq_ok {f : Frame} {n : Node} {v : Value} {m m' : Machine} (h : node 0 f n m = .ok v m') :
    n.kind = .literal v ∧ m' = m := by
  unfold node at h
  cases hk : n.kind with
  | literal w => rw [hk] at h; cases h; exact ⟨rfl, rfl⟩
  | _ => rw [hk] at h; cases h

theorem Eval.kept_eq_ok {fuel : Nat} {f : Frame} {n : Node} {v : Value} {m m' : Machine}
    (h : kept asked (fuel + 1) f n m = .ok v m') :
    step (kept asked fuel) fuel f n m = .ok v m' ∧ (asked n → v.Meets n.egress) := by
  obtain ⟨w, m₁, hstep, hcheck⟩ := Run.bind_eq_ok.mp h
  split at hcheck
  next => cases hcheck
  next hkept =>
    cases hcheck
    exact ⟨hstep, fun hasked => not_not.mp fun hbroken => hkept ⟨hasked, hbroken⟩⟩

theorem Evaluator.Discreet.kept (fuel : Nat) : (Eval.kept asked fuel).Discreet := by
  induction fuel with
  | zero =>
    intro f n _ m v m' h
    rw [(Eval.node_zero_eq_ok (f := f) h).2]
  | succ fuel ih => exact fun f n hn m v m' h => KeepsReturned.step ih fuel hn m v m' (Eval.kept_eq_ok h).1

theorem Concur.self {x : EvalM α} {P : α → Prop} (h : ∀ m a m', x m = .ok a m' → P a) :
    Concur (fun _ => True) x x P := fun m _ => ⟨rfl, fun a m' heq => ⟨trivial, h m a m' heq⟩⟩

/-- An expression gives what its static type promises, if the places that it rests on do. -/
theorem meets_kept {f : Frame} {n : Node} (hf : f.mode = .interpreted) (hn : IsExpression typed n)
    (hasked : ∀ p, p.isPlace = true → p.RestsOn n → asked p) {fuel : Nat} {m m' : Machine} {v : Value}
    (h : Eval.kept asked fuel f n m = .ok v m') : v.Meets n.egress := by
  induction fuel generalizing n m m' v with
  | zero =>
    have hk := (Eval.node_zero_eq_ok (f := f) h).1
    cases hn with
    | literal egress => cases hk; exact (Value.meets_typeOf v).cast egress
    | _ => cases hk
  | succ fuel ih =>
    intro hknown
    obtain ⟨hstep, hpromise⟩ := Eval.kept_eq_ok h
    by_cases hplace : n.isPlace = true
    · exact hpromise (hasked n hplace (.here hknown)) hknown
    have hbase : ∀ {c : Node} {m₁ m₂ : Machine} {w : Value}, IsExpression typed c → c ∈ n.bases →
        Eval.kept asked fuel f c m₁ = .ok w m₂ → w.Meets c.egress :=
      fun hc hb hw => ih hc (fun p hp hr => hasked p hp (.under hknown hb hr)) hw
    by_cases hcall : ∃ name args, n.kind = .call name args
    · obtain ⟨name, args, hk⟩ := hcall
      cases hn with
      | call parts egress =>
        have hnothing : Ty.isKnown .any = true := egress ▸ hknown
        cases hnothing
      | _ => cases hk
    by_cases hwith : ∃ target items, n.kind = .withItems target items
    · obtain ⟨target, items, hk⟩ := hwith
      cases hn with
      | withItems subject parts egress =>
        obtain ⟨w, m₁, htarget, hrest⟩ := Run.bind_eq_ok.mp hstep
        have hw : v = w := by
          split at hrest
          · cases hrest
          · obtain ⟨_, m₂, -, hv⟩ := Run.bind_eq_ok.mp hrest
            cases hv
            rfl
        subst hw
        exact (hbase subject (by simp [Node.bases]) htarget).cast egress hknown
      | _ => cases hk
    have hsame := concur_step (fun _ _ h _ => h) hf hn (Bool.eq_false_iff.mpr hplace)
      (fun target items hk => hwith ⟨target, items, hk⟩) (fun name args hk => hcall ⟨name, args, hk⟩)
      (fun c hc => .self fun m₁ w m₂ hw => fun hb : c ∈ n.bases => hbase (hn.child hc) hb hw) fuel
    exact ((hsame m trivial).2 v m' hstep).2 (fun _ c hc w hw => hw hc) hknown

end Promised

end PathScript
