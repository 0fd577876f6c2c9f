import Mathlib
import PathScript.Proofs.Endless
import PathScript.Proofs.Stamped

/-! # Equality and order

Equality and order are two tables over the forms of values, each with its
mixtures: integers beside doubles in both, a character beside a text in the one,
a character beside an integer in the other. Equality follows containers as well.
A comparison that says yes has found every pair equal, so what it says of the
pairs carries over, and whether a comparison ends does not come into it. -/

namespace PathScript

/-! ## Doubles -/

namespace Binary64

open Float.Model Float.Model.UnpackedFloat

theorem compare_swap (x y : UnpackedFloat) : y.compare x = (x.compare y).map Ordering.swap := by
  cases x with
  | notANumber | zero =>
    cases y with
    | infinity t | finite t => cases t <;> rfl
    | _ => rfl
  | infinity s =>
    cases s <;> cases y with
    | infinity t | finite t => cases t <;> rfl
    | _ => rfl
  | finite s m e _ =>
    cases s <;> cases y with
    | infinity t => cases t <;> rfl
    | finite t k f _ =>
      cases t <;> simp [UnpackedFloat.compare, Ordering.swap_then, Std.OrientedOrd.eq_swap (a := e) (b := f),
        Std.OrientedOrd.eq_swap (a := m) (b := k)]
    | _ => rfl

theorem compare_self {x : UnpackedFloat} (hx : x.isNaN = false) : x.compare x = some .eq := by
  cases x with
  | notANumber => cases hx
  | infinity s => cases s <;> rfl
  | zero s => rfl
  | finite s m e _ => cases s <;> simp [UnpackedFloat.compare, Std.ReflOrd.compare_self]

theorem beq_iff (x y : Float) : (x == y) = true ↔ x.toModel.unpack.compare y.toModel.unpack = some .eq := by
  change (x.toModel.unpack.compare y.toModel.unpack == some .eq) = true ↔ _
  rw [beq_iff_eq]

theorem lt_iff (x y : Float) : x < y ↔ x.toModel.unpack.compare y.toModel.unpack = some .lt := by
  change decide _ = true ↔ _
  rw [decide_eq_true_iff]
  change (_ == _) = true ↔ _
  rw [beq_iff_eq]

theorem beq_self {x : Float} (hx : x.isNaN = false) : (x == x) = true := (beq_iff x x).mpr (compare_self hx)

/-- The tests for less, equal and greater come to one comparison. -/
theorem compareFloat_eq (x y : Float) : Value.compareFloat x y = x.toModel.unpack.compare y.toModel.unpack := by
  simp only [Value.compareFloat, beq_iff, lt_iff]
  rw [compare_swap x.toModel.unpack]
  cases x.toModel.unpack.compare y.toModel.unpack with
  | none => rfl
  | some o => cases o <;> rfl

theorem compareFloat_swap (x y : Float) : Value.compareFloat y x = (Value.compareFloat x y).map Ordering.swap := by
  rw [compareFloat_eq, compareFloat_eq, compare_swap]

theorem beq_eq_compareFloat {x y : Float} {o : Ordering} (ho : Value.compareFloat x y = some o) : (x == y) = (o == .eq) := by
  rw [Bool.eq_iff_iff, beq_iff, ← compareFloat_eq, ho]
  simp

end Binary64

/-! ## Order and equality -/

namespace Value

theorem textOrder_swap (s t : String) : (if t < s then Ordering.lt else if t = s then .eq else .gt) =
    (if s < t then Ordering.lt else if s = t then .eq else .gt).swap := by
  rcases lt_trichotomy s t with hlt | rfl | hlt
  · simp [hlt, hlt.ne', hlt.not_gt]
  · simp
  · simp [hlt, hlt.ne', hlt.not_gt]

/-- The order of two values is that of the same values in turn, reversed. -/
theorem compare_comm (a b : Value) : b.compare a = (a.compare b).map Ordering.swap := by
  cases a with
  | int m =>
    cases b with
    | int n | char c => exact congrArg some Std.OrientedOrd.eq_swap
    | float y => exact Binary64.compareFloat_swap _ _
    | _ => rfl
  | float x =>
    cases b with
    | int n | float y => exact Binary64.compareFloat_swap _ _
    | _ => rfl
  | str s =>
    cases b with
    | str t => exact congrArg some (textOrder_swap s t)
    | _ => rfl
  | char c =>
    cases b with
    | char d | int n => exact congrArg some Std.OrientedOrd.eq_swap
    | _ => rfl
  | bool x =>
    cases b with
    | bool y => exact congrArg some Std.OrientedOrd.eq_swap
    | _ => rfl
  | _ => cases b <;> rfl

/-- A character beside an integer, the one mixture that is ordered and never equal. -/
def mixesCode : Value → Value → Bool
  | char _, int _ => true
  | int _, char _ => true
  | _, _ => false

/-- Values that are ordered are equal exactly if neither is the lesser. -/
theorem equal_of_compare {h : Heap} {a b : Value} {o : Ordering} (ho : a.compare b = some o) (hmix : mixesCode a b = false) :
    equal h a b = some (o == .eq) := by
  have hlinear : ∀ {α : Type} [LinearOrder α] (x y : α), decide (x = y) = (Ord.compare x y == .eq) := fun x y => by
    rw [Bool.eq_iff_iff]
    simp
  cases a with
  | int m =>
    cases b with
    | int n =>
      cases ho
      rw [← hlinear]
      simp [equal, equalHolding, equalWithin, Int64.toInt_inj]
    | float y => exact congrArg some (Binary64.beq_eq_compareFloat ho)
    | char c => cases hmix
    | _ => cases ho
  | float x =>
    cases b with
    | int n | float y => exact congrArg some (Binary64.beq_eq_compareFloat ho)
    | _ => cases ho
  | str s =>
    cases b with
    | str t =>
      cases ho
      change some (decide (s = t)) = _
      rcases lt_trichotomy s t with hlt | rfl | hlt
      · simp [hlt, hlt.ne]
      · simp
      · simp [hlt.not_gt, hlt.ne']
    | _ => cases ho
  | char c =>
    cases b with
    | char d =>
      cases ho
      rw [← hlinear]
      simp [equal, equalHolding, equalWithin, Char.toNat_inj]
    | int n => cases hmix
    | _ => cases ho
  | bool x =>
    cases b with
    | bool y =>
      cases ho
      cases x <;> cases y <;> rfl
    | _ => cases ho
  | _ => cases b <;> cases ho

/-- A character and an integer are ordered by the code point, and never equal. -/
theorem compare_of_mixesCode {h : Heap} {a b : Value} (hmix : mixesCode a b = true) :
    equal h a b = some false ∧ ∃ m n : Int64, Operator.intOperand? a = some m ∧ Operator.intOperand? b = some n ∧
      a.compare b = some (Ord.compare m.toInt n.toInt) := by
  have hcode : ∀ c : Char, (charCode c).toInt = (c.toNat : Int) := fun c => by
    have hlt : c.toNat < 4294967296 := c.val.toNat_lt
    exact Int64.toInt_ofNat_of_lt (by omega)
  cases a with
  | char c =>
    cases b with
    | int n => exact ⟨rfl, charCode c, n, rfl, rfl, by rw [hcode]; rfl⟩
    | _ => cases hmix
  | int m =>
    cases b with
    | char c => exact ⟨rfl, m, charCode c, rfl, rfl, by rw [hcode]; rfl⟩
    | _ => cases hmix
  | _ => cases hmix

/-- Values that the relations accept have the reverse order in turn. They are equal exactly if neither is the lesser, and so
if both `<=` and `>=` hold, except that a character and an integer, which are ordered by the code point, are never equal. -/
theorem order_agrees_with_equality (h : Heap) (a b : Value) (o : Ordering) (ho : a.compare b = some o) :
    b.compare a = some o.swap ∧ (mixesCode a b = false → equal h a b = some (o == .eq) ∧
      (Operator.le.apply a b h = .ok (.bool true) h ∧ Operator.ge.apply a b h = .ok (.bool true) h ↔
        Operator.eq.apply a b h = .ok (.bool true) h)) ∧
    (mixesCode a b = true → equal h a b = some false ∧ ∃ m n : Int64,
      Operator.intOperand? a = some m ∧ Operator.intOperand? b = some n ∧ o = Ord.compare m.toInt n.toInt) := by
  refine ⟨by rw [compare_comm, ho]; rfl, fun hmix => ?_, fun hmix => ?_⟩
  · have hequal := equal_of_compare (h := h) ho hmix
    have heq : Operator.eq.apply a b h = .ok (.bool (o == .eq)) h := by
      rw [Operator.apply, equals, Run.bind_apply, Run.query, hequal]
      rfl
    have hle : Operator.le.apply a b h = .ok (.bool (o != .gt)) h := by
      simp only [Operator.apply, ho]
      rfl
    have hge : Operator.ge.apply a b h = .ok (.bool (o != .lt)) h := by
      simp only [Operator.apply, ho]
      rfl
    refine ⟨hequal, ?_⟩
    rw [heq, hle, hge]
    cases o <;> simp
  · obtain ⟨hequal, m, n, hm, hn, hcompare⟩ := compare_of_mixesCode (h := h) hmix
    exact ⟨hequal, m, n, hm, hn, Option.some.inj (ho.symm.trans hcompare)⟩

/-- A text is as it is ordered; a character has the order of its code point and differs from it. -/
theorem order_agrees_with_equality_of_text_and_code :
    ((str "b").compare (.str "a") = some .gt ∧ (str "a").compare (.str "b") = some .lt ∧
      equal .empty (.str "b") (.str "a") = some false) ∧
    ((char 'A').compare (.int 65) = some .eq ∧ equal .empty (.char 'A') (.int 65) = some false) := by
  have htext : (str "b").compare (.str "a") = some .gt := by decide
  have hcode : (char 'A').compare (.int 65) = some .eq := by decide
  obtain ⟨hswap, hequal, -⟩ := order_agrees_with_equality .empty _ _ _ htext
  obtain ⟨-, -, hdiffer⟩ := order_agrees_with_equality .empty _ _ _ hcode
  exact ⟨⟨htext, hswap, (hequal rfl).1⟩, hcode, (hdiffer rfl).1⟩

/-- `'A' <= 65` and `'A' >= 65` hold, and `'A' == 65` does not. -/
theorem ordered_alike_not_equal : (char 'A').compare (.int 65) = some .eq ∧
    (Operator.le.apply (.char 'A') (.int 65) Heap.empty = .ok (.bool true) .empty ∧
      Operator.ge.apply (.char 'A') (.int 65) Heap.empty = .ok (.bool true) .empty) ∧
    equal .empty (.char 'A') (.int 65) = some false ∧
    Operator.eq.apply (.char 'A') (.int 65) Heap.empty = .ok (.bool false) .empty :=
  ⟨by decide, ⟨rfl, rfl⟩, rfl, rfl⟩

/-! ## Symmetry -/

variable {h : Heap} {held : Option Nat} {n : Nat} {v w : Value} {eq : Value → Value → Option Bool}

theorem allM_eq_true {α : Type} {p : α → Option Bool} {l : List α} : allM p l = some true ↔ ∀ x ∈ l, p x = some true := by
  induction l with
  | nil => simp [allM]
  | cons x l ih =>
    rw [List.forall_mem_cons, ← ih, allM]
    cases p x with
    | none => simp
    | some b => cases b <;> simp

theorem itemsEqual_eq_true {xs ys : Array Value} :
    itemsEqual eq xs ys = some true ↔ List.Forall₂ (fun x y => eq x y = some true) xs.toList ys.toList := by
  rw [List.forall₂_iff_zip, Array.length_toList, Array.length_toList, itemsEqual]
  split
  · next hsize => simp [allM_eq_true, hsize]
  · next hsize => simp [hsize]

theorem entriesEqual_eq_true {left right : Dict Value} : entriesEqual eq left right = some true ↔
      left.size = right.size ∧ ∀ e ∈ left.entries, ∃ w, right.get? e.1 = some w ∧ eq e.2 w = some true := by
  rw [entriesEqual]
  split
  · next hsize =>
    rw [allM_eq_true, and_iff_right hsize]
    refine forall₂_congr fun e _ => ?_
    cases right.get? e.1 <;> simp
  · next hsize => simp [hsize]

/-- Of two maps of one size, keys are distinct in both, so those of the first are all that the second has. -/
theorem entriesEqual_symm {left right : Dict Value} (heq : ∀ {v w}, eq v w = some true → eq w v = some true)
    (hequal : entriesEqual eq left right = some true) : entriesEqual eq right left = some true := by
  obtain ⟨hsize, hleft⟩ := entriesEqual_eq_true.mp hequal
  have hsub : left.keys ⊆ right.keys := by
    intro k hk
    obtain ⟨e, he, rfl⟩ := List.mem_map.mp hk
    obtain ⟨w, hw, -⟩ := hleft e he
    exact (right.contains_iff e.1).mp (by rw [Dict.contains, hw]; rfl)
  have hperm : left.keys.Perm right.keys := by
    refine (left.nodup_keys.subperm hsub).perm_of_length_le ?_
    simp only [Dict.keys, Entries.keys, List.length_map]
    exact hsize.ge
  refine entriesEqual_eq_true.mpr ⟨hsize.symm, fun e he => ?_⟩
  obtain ⟨e', he', hkey⟩ := List.mem_map.mp (hperm.mem_iff.mpr (List.mem_map_of_mem he))
  obtain ⟨w, hw, hvalue⟩ := hleft e' he'
  have hsame : e.2 = w := by
    rw [hkey, Dict.get?_of_mem he] at hw
    exact Option.some.inj hw
  exact ⟨e'.2, hkey ▸ Dict.get?_of_mem he', heq (hsame ▸ hvalue)⟩

/-- A value that is no list, array or map is compared alike from both sides. -/
theorem equalWithin_comm_of_none (hv : v.container? false = none) :
    equalWithin h held n v w = equalWithin h held n w v := by
  cases v with
  | list | array | map => cases hv
  | int m =>
    cases w with
    | int k => simp [equalWithin, eq_comm]
    | float y => simp [equalWithin, BEq.comm]
    | _ => cases n <;> rfl
  | float x =>
    cases w with
    | int k | float y => simp [equalWithin, BEq.comm]
    | _ => cases n <;> rfl
  | bool | char | str | object | function | native | cls => cases w <;> simp [equalWithin, eq_comm, Bool.beq_comm]
  | null | void => cases w <;> cases n <;> rfl

theorem ite_eq_true_symm {a b : Nat} {x y : Option Bool} (hxy : x = some true → y = some true)
    (hx : (if a = b then some true else x) = some true) : (if b = a then some true else y) = some true := by
  by_cases hab : a = b
  · rw [if_pos hab.symm]
  · rw [if_neg hab] at hx
    rw [if_neg (Ne.symm hab), hxy hx]

/-- A comparison that says yes says so from both sides. -/
theorem equalWithin_symm {n : Nat} {v w : Value} (hequal : equalWithin h held n v w = some true) :
    equalWithin h held n w v = some true := by
  have hitems : ∀ {n : Nat} {xs ys : Array Value},
      (∀ {v w}, equalWithin h held n v w = some true → equalWithin h held n w v = some true) →
      itemsEqual (equalWithin h held n) xs ys = some true → itemsEqual (equalWithin h held n) ys xs = some true :=
    fun ih hxs => itemsEqual_eq_true.mpr ((itemsEqual_eq_true.mp hxs).flip.imp fun _ _ => ih)
  cases v with
  | list a =>
    cases w with
    | list b =>
      cases n with
      | zero => cases hequal
      | succ n =>
        refine ite_eq_true_symm (fun hinside => ?_) hequal
        rw [Bool.or_comm]
        split at hinside
        · cases hinside
        · next hheld => rw [if_neg hheld, hitems equalWithin_symm hinside]
    | _ => cases n <;> cases hequal
  | array a =>
    cases w with
    | array b =>
      cases n with
      | zero => cases hequal
      | succ n => exact ite_eq_true_symm (hitems equalWithin_symm) hequal
    | _ => cases n <;> cases hequal
  | map a =>
    cases w with
    | map b =>
      cases n with
      | zero => cases hequal
      | succ n => exact ite_eq_true_symm (entriesEqual_symm equalWithin_symm) hequal
    | _ => cases n <;> cases hequal
  | _ => rwa [equalWithin_comm_of_none rfl] at hequal

/-- Two values are compared alike from both sides, if the ways from one of them end. -/
theorem equal_symm (hends : ¬ h.Endless false v ∨ ¬ h.Endless false w) : ∃ b, equal h v w = some b ∧ equal h w v = some b := by
  have hsome : ∀ {v w}, (¬ h.Endless false v ∨ ¬ h.Endless false w) → (equal h v w).isSome = true := fun hends =>
    isSome_equalHolding hends fun _ hheld => nomatch hheld
  obtain ⟨b, hb⟩ := Option.isSome_iff_exists.mp (hsome hends)
  obtain ⟨c, hc⟩ := Option.isSome_iff_exists.mp (hsome hends.symm)
  have hbc : b = c := by
    rw [Bool.eq_iff_iff]
    exact ⟨fun htrue => Option.some.inj (hc.symm.trans (equalWithin_symm (htrue ▸ hb))),
      fun htrue => Option.some.inj (hb.symm.trans (equalWithin_symm (htrue ▸ hc)))⟩
  exact ⟨b, hb, hbc ▸ hc⟩

end Value

/-! ## Copies -/

theorem Value.ref?_of_container? {fields : Bool} {v : Value} {r : Ref} (hv : v.container? fields = some r) : v.ref? = some r := by
  cases v with
  | list | array | map => exact hv
  | object c a => exact (Option.ite_none_right_eq_some.mp hv).2
  | _ => cases hv

namespace Heap

variable {h s t : Heap} {v w : Value} {r : Ref}

/-- A value is a number, if it is a double, and so is every double that it leads to by lists, arrays and maps. -/
def Numeric (h : Heap) (v : Value) : Prop :=
  ∀ x : Float, (v = .float x ∨ ∃ r, h.Reaches false v r ∧ .float x ∈ h.contents r) → x.isNaN = false

/-- All lists, arrays and maps that a value leads to are there. -/
def Present (h : Heap) (v : Value) : Prop := ∀ r, h.Reaches false v r → r ∈ h.refs

/-- A heap in which all containers are as they were; there may be new ones. -/
def Grows (h s : Heap) : Prop := h.Changes (fun _ => False) s

theorem Grows.refl (h : Heap) : h.Grows h := ⟨fun _ hr => hr, fun r _ _ => by cases r <;> rfl⟩

theorem Grows.trans (hs : h.Grows s) (ht : s.Grows t) : h.Grows t := by
  refine ⟨fun r hr => ht.kept (hs.kept hr), fun r hr hnot => ?_⟩
  have hfirst := hs.same r hr hnot
  have hsecond := ht.same r (hs.kept hr) hnot
  cases r <;> exact Eq.trans hsecond hfirst

theorem Grows.stamp (u : Template) (h : Heap) : h.Grows (u.stamp h).2 := by
  obtain ⟨r, -, -, -, hgrows⟩ := stamp_new u h
  exact hgrows

theorem Numeric.of_mem (hnum : h.Numeric v) (hv : v.container? false = some r) (hw : w ∈ h.contents r) : h.Numeric w := by
  rintro x (rfl | ⟨s, hs, hx⟩)
  · exact hnum x (.inr ⟨r, ⟨r, hv, .refl⟩, hw⟩)
  · exact hnum x (.inr ⟨s, hs.of_mem hv hw, hx⟩)

theorem Present.of_mem (hpresent : h.Present v) (hv : v.container? false = some r) (hw : w ∈ h.contents r) : h.Present w :=
  fun s hs => hpresent s (hs.of_mem hv hw)

theorem Grows.template_stamp {u : Template} (hgrows : (u.stamp h).2.Grows t) : Template.of? t (u.stamp h).1 = some u := by
  obtain ⟨r, hr, -, hmem, -⟩ := stamp_new u h
  refine (hgrows.same r hmem not_false).template hr ?_
  cases u <;> simp [Template.stamp, Template.of?, newList, newArray, newMap, list, array, map, Table.get?_alloc]

theorem Grows.template (hgrows : h.Grows t) (hv : v.ref? = some r) (hr : r ∈ h.refs) : Template.of? t v = Template.of? h v := by
  have hsame := hgrows.same r hr not_false
  cases v with
  | list a | array a | map a =>
    cases hv
    simp only [Template.of?, list, array, map, show _ = _ from hsame]
  | _ => rfl

end Heap

namespace Value

variable {ε : Type} {h : Heap} {n : Nat} {v w : Value}

/-- What holds of the results of steps one by one, in all heaps that grow from there, holds of all of them at the end. -/
theorem mapM_forall₂ {α β : Type} {f : α → Run Heap ε β} {R : Heap → α → β → Prop} {l : List α} {bs : List β} {s s' : Heap}
    (hf : ∀ x ∈ l, ∀ s b s', h.Grows s → f x s = .ok b s' → s.Grows s' ∧ ∀ t, s'.Grows t → R t x b)
    (hs : h.Grows s) (hrun : l.mapM f s = .ok bs s') : s.Grows s' ∧ ∀ t, s'.Grows t → List.Forall₂ (R t) l bs := by
  induction l generalizing s bs with
  | nil =>
    cases hrun
    exact ⟨.refl _, fun t _ => .nil⟩
  | cons x l ih =>
    obtain ⟨hx, hl⟩ := List.forall_mem_cons.mp hf
    rw [List.mapM_cons] at hrun
    obtain ⟨b, s₁, hb, hrun⟩ := Run.bind_eq_ok.mp hrun
    obtain ⟨bs', s₂, hbs, hrun⟩ := Run.bind_eq_ok.mp hrun
    cases hrun
    obtain ⟨hfirst, hR⟩ := hx s b s₁ hs hb
    obtain ⟨hrest, hRs⟩ := ih hl (hs.trans hfirst) hbs
    exact ⟨hfirst.trans hrest, fun t ht => .cons (hR t (hrest.trans ht)) (hRs t ht)⟩

/-- Containers of one kind are compared by what is in them. -/
def templatesEqual (eq : Value → Value → Option Bool) : Template → Template → Option Bool
  | .list xs, .list ys => itemsEqual eq xs ys
  | .array xs, .array ys => itemsEqual eq xs ys
  | .map left, .map right => entriesEqual eq left right
  | _, _ => some false

theorem equalWithin_of_templates {u u' : Template} (hv : Template.of? h v = some u) (hw : Template.of? h w = some u')
    (hinside : templatesEqual (equalWithin h none n) u u' = some true) : equalWithin h none (n + 1) v w = some true := by
  cases v with
  | list a | array a | map a =>
    cases hv
    cases w with
    | list b | array b | map b =>
      cases hw
      first
        | cases hinside
        | exact ite_eq_left_iff.mpr fun _ => hinside
    | _ => cases hw
  | _ => cases hv

/-- A container and one that is stamped out are equal from then on, if their contents are. -/
theorem equalWithin_stamped {s s₁ : Heap} {r : Ref} {u : Template} (m : Template) (hpresent : h.Present v)
    (hr : v.container? false = some r) (hv : Template.of? h v = some u) (hs : h.Grows s) (hs₁ : s.Grows s₁)
    (hinside : ∀ t, s₁.Grows t → templatesEqual (equalWithin t none n) u m = some true) :
    s.Grows (m.stamp s₁).2 ∧ ∀ t, (m.stamp s₁).2.Grows t → equalWithin t none (n + 1) v (m.stamp s₁).1 = some true := by
  have hstamp := Heap.Grows.stamp m s₁
  refine ⟨hs₁.trans hstamp, fun t ht => equalWithin_of_templates ?_ ht.template_stamp (hinside t (hstamp.trans ht))⟩
  rw [((hs.trans (hs₁.trans hstamp)).trans ht).template (ref?_of_container? hr) (hpresent r ⟨r, hr, .refl⟩), hv]

theorem ofList_entries_eq {es : List (String × Value)} {d : Dict Value} (hkeys : Entries.keys es = d.keys) :
    (Dict.ofList es).entries = es :=
  congrArg Dict.entries (Dict.ofList_entries ⟨es, hkeys ▸ d.distinct⟩)

theorem entriesEqual_of_forall₂ {eq : Value → Value → Option Bool} {d : Dict Value} {es : List (String × Value)}
    (hes : List.Forall₂ (fun e e' => e.1 = e'.1 ∧ eq e.2 e'.2 = some true) d.entries es) :
    entriesEqual eq d (.ofList es) = some true := by
  have hkeys : Entries.keys es = d.keys := by
    have hsame : List.Forall₂ (· = ·) (d.entries.map (·.1)) (es.map (·.1)) :=
      List.forall₂_map_left_iff.mpr (List.forall₂_map_right_iff.mpr (hes.imp fun _ _ he => he.1))
    rw [List.forall₂_eq_eq_eq] at hsame
    exact hsame.symm
  refine entriesEqual_eq_true.mpr ⟨?_, fun e he => ?_⟩
  · rw [Dict.size, Dict.size, ofList_entries_eq hkeys, hes.length_eq]
  · obtain ⟨e', he', hkey, hvalue⟩ : ∃ e' ∈ es, e.1 = e'.1 ∧ eq e.2 e'.2 = some true := by
      obtain ⟨i, hi, rfl⟩ := List.getElem_of_mem he
      exact ⟨_, List.getElem_mem _, hes.get hi (hes.length_eq ▸ hi)⟩
    rw [← ofList_entries_eq hkeys] at he'
    exact ⟨e'.2, hkey ▸ Dict.get?_of_mem he', hvalue⟩

theorem equalWithin_self {t : Heap} (hv : v.container? false = none) (hnum : h.Numeric v) :
    equalWithin t none n v v = some true := by
  cases v with
  | list a | array a | map a => cases hv
  | float x => simp [equalWithin, Binary64.beq_self (hnum x (.inl rfl))]
  | _ => simp [equalWithin]

/-- Copying lets the heap grow, and from then on a copy is equal to its value. -/
theorem copyWithin_equal {n : Nat} {v c : Value} {s s' : Heap} (hpresent : h.Present v) (hnum : h.Numeric v) (hs : h.Grows s)
    (hcopy : (copyWithin h n v : Run Heap ε Value) s = .ok c s') :
    s.Grows s' ∧ ∀ t, s'.Grows t → equalWithin t none n v c = some true := by
  cases hr : v.container? false with
  | none =>
    have hsame : (copyWithin h n v : Run Heap ε Value) = pure v := by
      cases v with
      | list a | array a | map a => cases hr
      | _ => cases n <;> rfl
    rw [hsame] at hcopy
    cases hcopy
    exact ⟨.refl _, fun t _ => equalWithin_self hr hnum⟩
  | some r =>
    cases n with
    | zero => cases v <;> cases hr <;> cases hcopy
    | succ n =>
      -- What is inside is looked up in `h`, though each copy is made in a heap that has grown.
      have hinside : ∀ w ∈ h.contents r, ∀ s c s', h.Grows s → (copyWithin h n w : Run Heap ε Value) s = .ok c s' →
          s.Grows s' ∧ ∀ t, s'.Grows t → equalWithin t none n w c = some true :=
        fun w hw s c s' hs => copyWithin_equal (hpresent.of_mem hr hw) (hnum.of_mem hr hw) hs
      cases v with
      | list a =>
        cases hr
        obtain ⟨items, s₁, hitems, hstep⟩ := Run.bind_eq_ok.mp hcopy
        cases hstep
        obtain ⟨hgrows, hequal⟩ := mapM_forall₂ hinside hs hitems
        exact equalWithin_stamped (.list items.toArray) hpresent rfl rfl hs hgrows fun t ht =>
          itemsEqual_eq_true.mpr (hequal t ht)
      | array a =>
        cases hr
        obtain ⟨items, s₁, hitems, hstep⟩ := Run.bind_eq_ok.mp hcopy
        cases hstep
        obtain ⟨hgrows, hequal⟩ := mapM_forall₂ hinside hs hitems
        exact equalWithin_stamped (.array items.toArray) hpresent rfl rfl hs hgrows fun t ht =>
          itemsEqual_eq_true.mpr (hequal t ht)
      | map a =>
        cases hr
        obtain ⟨entries, s₁, hentries, hstep⟩ := Run.bind_eq_ok.mp hcopy
        cases hstep
        obtain ⟨hgrows, hequal⟩ := mapM_forall₂
          (R := fun t e e' => e.1 = e'.1 ∧ equalWithin t none n e.2 e'.2 = some true) (fun e he s e' s' hs hstep => by
            obtain ⟨c, s₁, hc, hpure⟩ := Run.bind_eq_ok.mp hstep
            cases hpure
            obtain ⟨hgrows, hequal⟩ := hinside e.2 (List.mem_map_of_mem he) s c _ hs hc
            exact ⟨hgrows, fun t ht => ⟨rfl, hequal t ht⟩⟩) hs hentries
        exact equalWithin_stamped (.map (.ofList entries)) hpresent rfl rfl hs hgrows fun t ht =>
          entriesEqual_of_forall₂ (hequal t ht)
      | _ => cases hr

/-- Equality is symmetric: if one of two values reaches no container that holds itself, they are compared, and alike from both
sides. A value that leads to no double but numbers is equal to itself and, if it reaches no container that holds itself,
has a copy that is equal to it. -/
theorem equality_symmetric_and_kept_by_copy {ε : Type} (h : Heap) (a b : Value) :
    (¬ h.Endless false a ∨ ¬ h.Endless false b → ∃ same, equal h a b = some same ∧ equal h b a = some same) ∧
    (h.Numeric a → equal h a a = some true) ∧ (¬ h.Endless false a → h.Present a → h.Numeric a →
      ∃ c h', (a.copy : Run Heap ε Value) h = .ok c h' ∧ equal h' a c = some true) := by
  refine ⟨equal_symm, fun hnum => ?_, fun hends hpresent hnum => ?_⟩
  · cases hr : a.container? false with
    | none => exact equalWithin_self hr hnum
    | some r =>
      -- The same container is not looked into.
      cases a with
      | list | array | map => exact if_pos rfl
      | _ => cases hr
  · obtain ⟨c, h', hcopy⟩ := copyWithin_endsIff.1 (Heap.endsWithin_of_not_endless hends) h
    refine ⟨c, h', hcopy, ?_⟩
    exact equalHolding_of_equalWithin ((copyWithin_equal hpresent hnum (.refl h) hcopy).2 h' (.refl h'))

/-- A map that holds a list, beside a value that it differs from. -/
theorem equality_of_nested_and_copied :
    let h := ((Heap.empty.newList #[.int 1, .str "x"]).2.newMap (.ofList [("k", .list 0)])).2
    (¬ h.Endless false (.map 0) ∧ h.Present (.map 0) ∧ h.Numeric (.map 0)) ∧
    (∃ same, equal h (.map 0) .null = some same ∧ equal h .null (.map 0) = some same) ∧
    equal h (.map 0) (.map 0) = some true ∧
    ∃ c h', ((map 0).copy : Run Heap Error Value) h = .ok c h' ∧ equal h' (.map 0) c = some true := by
  intro h
  have houter : h.contents (.map 0) = [.list 0] := rfl
  have hinner : h.contents (.list 0) = [.int 1, .str "x"] := rfl
  have hreaches : ∀ r, h.Reaches false (.map 0) r → r = .map 0 ∨ r = .list 0 := by
    rintro r ⟨_, ⟨⟩, hsteps⟩
    induction hsteps with
    | refl => exact .inl rfl
    | tail _ hstep ih =>
      obtain ⟨w, hw, hr⟩ := hstep
      obtain rfl | rfl := ih
      · simp only [houter, List.mem_singleton] at hw
        cases hw
        exact .inr (Option.some.inj hr).symm
      · simp only [hinner, List.mem_cons, List.not_mem_nil, or_false] at hw
        obtain rfl | rfl := hw <;> cases hr
  have hends : ¬ h.Endless false (.map 0) := by
    refine Heap.EndsWithin.not_endless (n := 2) ?_
    rw [Heap.endsWithin_succ rfl, houter, List.forall_mem_singleton, Heap.endsWithin_succ rfl, hinner]
    simp [Heap.EndsWithin, container?]
  have hpresent : h.Present (.map 0) := by
    intro r hr
    obtain rfl | rfl := hreaches r hr <;> decide
  have hnum : h.Numeric (.map 0) := by
    rintro x (hx | ⟨r, hr, hx⟩)
    · cases hx
    · obtain rfl | rfl := hreaches r hr
      · simp [houter] at hx
      · simp [hinner] at hx
  obtain ⟨hsymm, hself, hcopied⟩ := equality_symmetric_and_kept_by_copy (ε := Error) h (.map 0) .null
  exact ⟨⟨hends, hpresent, hnum⟩, hsymm (.inl hends), hself hnum, hcopied hends hpresent hnum⟩

end Value

end PathScript
