import Mathlib.Data.List.Forall2
import PathScript.Member

/-! # Conversions that succeed

A registry asks a converter of the host or the built-in rules. Those hand a
value on as it is, give a value for it that needs no container, or copy a list
into an array or an array into a list. -/

namespace PathScript

/-- A value of a type, or `null` if it may stand for one. -/
def Value.Fits (v : Value) (ty : Ty) : Prop := v.typeOf = ty ∨ v = .null ∧ ty.isNullable = true

instance (v : Value) (ty : Ty) : Decidable (v.Fits ty) := inferInstanceAs (Decidable (_ ∨ _))

theorem Value.fits_typeOf (v : Value) : v.Fits v.typeOf := .inl rfl

namespace Convert

variable {v w : Value} {target : Ty} {h h' : Heap}

/-! ## The built-in rules -/

/-- What the built-in rules give for a value, and the heap they leave. -/
inductive Gives (v : Value) (target : Ty) (h : Heap) : Value → Heap → Prop where
  | any (htarget : target = .any) : Gives v target h v h
  | null (hv : v = .null) (hnull : target.isNullable = true) : Gives v target h .null h
  | list {a : Nat} (htarget : target = .list) (hv : v = .array a) :
      Gives v target h (h.newList (h.array a)).1 (h.newList (h.array a)).2
  | array {a : Nat} (htarget : target = .array) (hv : v = .list a) :
      Gives v target h (h.newArray (h.list a)).1 (h.newArray (h.list a)).2
  | simple {w : Value} (hw : simple? h target v = some (some w)) : Gives v target h w h

theorem not_ok_of_refuse (hw : refuse v target h = .ok w h') : False := by
  obtain ⟨text, h₁, -, hfail⟩ := Run.bind_eq_ok.mp hw
  cases hfail

theorem gives_of_convert (hw : convert v target h = .ok w h') : Gives v target h w h' := by
  unfold convert at hw
  split at hw
  case h_1 => cases hw; exact .any rfl
  case h_2 =>
    split at hw
    next hnull => cases hw; exact .null rfl hnull
    next => exact (not_ok_of_refuse hw).elim
  case h_3 => cases hw; exact .list rfl rfl
  case h_4 => cases hw; exact .array rfl rfl
  case h_5 =>
    obtain ⟨found, h₁, hquery, hw⟩ := Run.bind_eq_ok.mp hw
    unfold Run.query at hquery
    split at hquery
    next hsimple =>
      cases hquery
      cases found with
      | none => exact (not_ok_of_refuse hw).elim
      | some x => cases hw; exact .simple hsimple
    next => cases hquery

theorem typeOf_of_simple? (hw : simple? h target v = some (some w)) : w.typeOf = target := by
  unfold simple? at hw
  split at hw
  -- What is given back as it is, or made whatever the value is.
  case h_1 | h_3 | h_4 | h_6 | h_7 | h_10 | h_13 | h_15 | h_16 | h_17 | h_18 | h_19 | h_20 => cases hw; rfl
  -- What a text or a number may stand for.
  case h_5 | h_8 | h_12 | h_14 =>
    obtain ⟨x, -, rfl⟩ := Option.map_eq_some_iff.mp (Option.some.inj hw)
    rfl
  case h_9 =>
    obtain ⟨t, -, ht⟩ := Option.map_eq_some_iff.mp hw
    cases ht
    rfl
  case h_11 =>
    have hw := Option.some.inj hw
    split at hw
    · cases hw; rfl
    · cases hw
  -- What is taken under a condition.
  case h_2 =>
    obtain ⟨-, hw⟩ := Option.ite_none_right_eq_some.mp (Option.some.inj hw)
    rw [← Option.some.inj hw]
    rfl
  case h_21 | h_22 =>
    obtain ⟨hname, hw⟩ := Option.ite_none_right_eq_some.mp (Option.some.inj hw)
    rw [← Option.some.inj hw, ← hname]
    rfl
  case h_23 => cases hw

/-- The built-in rules give what they are asked for. -/
theorem fits_of_convert (hw : convert v target h = .ok w h') (hknown : target.isKnown = true) : w.Fits target := by
  cases gives_of_convert hw with
  | any htarget => subst htarget; cases hknown
  | null _ hnull => exact .inr ⟨rfl, hnull⟩
  | list htarget _ => subst htarget; exact .inl rfl
  | array htarget _ => subst htarget; exact .inl rfl
  | simple hsimple => exact .inl (typeOf_of_simple? hsimple)

theorem canConvert_self (ty : Ty) : canConvert ty ty = true := by simp [canConvert]

theorem canConvert_any (source : Ty) : canConvert .any source = true := by simp [canConvert]

theorem canConvert_null (hnull : target.isNullable = true) : canConvert target .null = true := by
  unfold canConvert
  split
  · rfl
  · exact hnull

theorem canConvert_str (source : Ty) : canConvert .str source = true := by cases source <;> rfl

/-- The rules convert nothing but what the table says can be converted. -/
theorem canConvert_of_simple? (hw : simple? h target v = some (some w)) : canConvert target v.typeOf = true := by
  unfold simple? at hw
  split at hw
  case h_9 => exact canConvert_str _
  case h_21 | h_22 =>
    obtain ⟨hname, -⟩ := Option.ite_none_right_eq_some.mp (Option.some.inj hw)
    rw [← hname]
    exact canConvert_self _
  case h_23 => cases hw
  all_goals rfl

/-- A value stands for itself where its own type is asked for. Nothing is converted to the type of no result. -/
theorem convert_typeOf (hv : v ≠ .void) (h : Heap) : convert v v.typeOf h = .ok v h := by
  cases v with
  | void => exact absurd rfl hv
  | object c a | cls c => simp [Value.typeOf, convert, simple?, Run.query, Run.bind_apply]
  | _ => rfl

theorem convert_again (hw : convert v target h = .ok w h') : convert w target h' = .ok w h' := by
  cases gives_of_convert hw with
  | any htarget => subst htarget; rfl
  | null _ hnull => cases target <;> first | rfl | cases hnull
  | list htarget _ => subst htarget; rfl
  | array htarget _ => subst htarget; rfl
  | simple hsimple =>
    have htype := typeOf_of_simple? hsimple
    have hvoid : w ≠ .void := by
      rintro rfl
      cases (show Ty.void = target from htype)
      cases hsimple
    exact htype ▸ convert_typeOf hvoid h

/-! ## Arguments -/

theorem eq_of_exact {p t : Ty} (h : p.conformance t = .exact) : p = t := by
  unfold Ty.conformance at h
  split at h
  · assumption
  · split at h
    case h_2 => split at h <;> cases h
    all_goals cases h

/-- A fit without loss: the parameter takes everything, the argument is `null`, or one of two conversions is made. -/
theorem widening_cases {p t : Ty} (h : p.conformance t = .widening) :
    p = .any ∨ t = .null ∨ p = .float ∧ t = .int ∨ p = .str ∧ t = .char := by
  unfold Ty.conformance at h
  split at h
  · cases h
  · split at h <;> simp_all

/-- A parameter that an argument fits without loss. -/
def Takes (p : Ty) (v : Value) : Prop := p.conformance v.typeOf = .exact ∨ p.conformance v.typeOf = .widening

/-- What is given for an argument: the argument itself to a parameter that takes everything, else what fits. -/
def Given (p : Ty) (v w : Value) : Prop := p = .any ∧ w = v ∨ w.Fits p

theorem fits_of_isNull {p : Ty} (htakes : Takes p v) (hnull : v.isNull = true) : Given p v v := by
  obtain rfl : v = .null := by cases v <;> first | rfl | cases hnull
  cases p <;> first | exact .inl ⟨rfl, rfl⟩ | exact .inr (.inr ⟨rfl, rfl⟩) | (rcases htakes with h | h <;> cases h)

/-- An argument that fits its parameter without loss is converted, and no container is changed or made. -/
theorem coerce_of_takes {p : Ty} (htakes : Takes p v) (h : Heap) :
    ∃ w, Member.coerce ConversionRegistry.empty.converter v p (p.conformance v.typeOf) h = .ok w h ∧ Given p v w := by
  unfold Member.coerce
  by_cases hkept : (p.conformance v.typeOf = .exact || p = .any || v.isNull) = true
  · refine ⟨v, by rw [if_pos hkept]; rfl, ?_⟩
    simp only [Bool.or_eq_true, decide_eq_true_eq] at hkept
    rcases hkept with (hexact | hany) | hnull
    · exact .inr (.inl (eq_of_exact hexact).symm)
    · exact .inl ⟨hany, rfl⟩
    · exact fits_of_isNull htakes hnull
  · rw [if_neg hkept]
    simp only [Bool.or_eq_true, decide_eq_true_eq, not_or] at hkept
    obtain ⟨⟨hexact, hany⟩, hnull⟩ := hkept
    rcases widening_cases (htakes.resolve_left hexact) with rfl | ht | ⟨rfl, ht⟩ | ⟨rfl, ht⟩
    · exact absurd rfl hany
    · cases v <;> first | exact absurd rfl hnull | cases ht
    · cases v <;> first | exact ⟨_, rfl, .inr (.inl rfl)⟩ | cases ht
    · cases v <;> first | exact ⟨_, rfl, .inr (.inl rfl)⟩ | cases ht

end Convert

/-- A registry converts by a converter of the host or by the built-in rules. -/
theorem ConversionRegistry.convert_cases (r : ConversionRegistry) (v : Value) (target : Ty) :
    (∃ e ∈ r.custom, r.converter.convert v target = e.2.convert v target) ∨
      r.converter.convert v target = Convert.convert v target := by
  unfold converter
  dsimp only
  cases hc : r.custom? target v.typeOf with
  | some c =>
    obtain ⟨e, he, rfl⟩ := Option.map_eq_some_iff.mp (Option.filter_eq_some_iff.mp hc).1
    exact .inl ⟨e, List.mem_of_find?_eq_some he, rfl⟩
  | none => exact .inr rfl

namespace Convert

/-- Arguments that fit their parameters without loss are all converted. -/
theorem coerceArgs_of_takes {params : List Ty} {args : List Value} (htakes : List.Forall₂ Takes params args) (h : Heap) :
    ∃ given, Member.coerceArgs ConversionRegistry.empty.converter args params
        (List.zipWith Ty.conformance params (args.map Value.typeOf)) h = .ok given h ∧
      List.Forall₂ (fun p (e : Value × Value) => Given p e.1 e.2) params (args.zip given) := by
  induction htakes with
  | nil => exact ⟨[], rfl, .nil⟩
  | @cons p v params args hp _ ih =>
    obtain ⟨w, hw, hgiven⟩ := coerce_of_takes hp h
    obtain ⟨rest, hrest, hall⟩ := ih
    refine ⟨w :: rest, ?_, .cons hgiven hall⟩
    rw [List.map_cons, List.zipWith_cons_cons, Member.coerceArgs]
    rw [Run.bind_ok hw, Run.bind_ok hrest]
    rfl

/-- What the built-in rules give for a value has the type that was asked for, or is `null` where the type has it, or is the
value itself where anything was asked for. Asking for the same type again gives the same value and leaves the heap, and
the conversion is one that the table knows. Arguments that fit their parameters exactly or without loss are given to
them without a fault, and each of them fits. -/
theorem convert_meets_target (v : Value) (target : Ty) (h : Heap) : (∀ w h', convert v target h = .ok w h' →
      (target = .any ∧ w = v ∨ w.typeOf = target ∨ w = .null ∧ target.isNullable = true) ∧
      convert w target h' = .ok w h' ∧ canConvert target v.typeOf = true) ∧
    (∀ params args, List.Forall₂ Takes params args →
      ∃ given, Member.coerceArgs ConversionRegistry.empty.converter args params
          (List.zipWith Ty.conformance params (args.map Value.typeOf)) h = .ok given h ∧
        List.Forall₂ (fun p (e : Value × Value) => Given p e.1 e.2) params (args.zip given)) := by
  refine ⟨fun w h' hw => ⟨?_, convert_again hw, ?_⟩, fun params args htakes => coerceArgs_of_takes htakes h⟩
  · cases gives_of_convert hw with
    | any htarget => exact .inl ⟨htarget, rfl⟩
    | null _ hnull => exact .inr (.inr ⟨rfl, hnull⟩)
    | list htarget _ => exact .inr (.inl htarget.symm)
    | array htarget _ => exact .inr (.inl htarget.symm)
    | simple hsimple => exact .inr (.inl (typeOf_of_simple? hsimple))
  · cases gives_of_convert hw with
    | any htarget => exact htarget ▸ canConvert_any _
    | null hv hnull => exact hv ▸ canConvert_null hnull
    | list htarget hv => exact htarget ▸ hv ▸ rfl
    | array htarget hv => exact htarget ▸ hv ▸ rfl
    | simple hsimple => exact canConvert_of_simple? hsimple

/-- An array is copied into a list, and the list is not copied again. -/
theorem convert_meets_target_array :
    let h := (Heap.newArray #[.int 1] .empty).2
    let args : List Value := [.int 2, .char 'x', .null]
    (∃ h', convert (.array 0) .list h = .ok (.list 0) h' ∧ convert (.list 0) .list h' = .ok (.list 0) h' ∧
      canConvert .list .array = true) ∧
    ∃ given, Member.coerceArgs ConversionRegistry.empty.converter args [.float, .str, .map] [.widening, .widening, .widening] h =
      .ok given h := by
  intro h args
  obtain ⟨hconvert, hargs⟩ := convert_meets_target (.array 0) .list h
  obtain ⟨-, hagain, hcan⟩ := hconvert (.list 0) _ rfl
  have htakes : List.Forall₂ Takes [.float, .str, .map] args := .cons (.inr rfl) (.cons (.inr rfl) (.cons (.inr rfl) .nil))
  obtain ⟨given, hgiven, -⟩ := hargs _ _ htakes
  exact ⟨⟨_, rfl, hagain, hcan⟩, given, hgiven⟩

end Convert

end PathScript
