import Mathlib
import PathScript.Proofs.Formed

/-! # Integer arithmetic

Results are those of the unbounded integers wherever the 64-bit range has them.
For powers this is so although every product on the way is checked: what is
multiplied never exceeds the power itself. The remainder is refused together
with the quotient, which is the one case where a result in range is not given.
-/

namespace PathScript

namespace Number

variable {a b : Int64}

/-! ## Powers -/

theorem fit?_eq_none_iff {n : Int} : fit? n = none ↔ n < -2 ^ 63 ∨ 2 ^ 63 ≤ n := by
  unfold fit?
  rw [Int64.toInt_minValue, Int64.toInt_maxValue]
  split <;> simp only [reduceCtorEq, false_iff, true_iff] <;> omega

/-- A factor of at least one leads no integer back into the range. -/
theorem fit?_mul_eq_none {n k : Int} (hn : fit? n = none) (hk : 1 ≤ k) : fit? (n * k) = none := by
  rw [fit?_eq_none_iff] at hn ⊢
  rcases hn with hn | hn
  · left
    nlinarith
  · right
    nlinarith

/-- A square beyond the range is beyond it with either sign, because `2 ^ 63` is no square. -/
theorem fit?_mul_square_eq_none {n k : Int} (hn : fit? (n * n) = none) (hk : k ≠ 0) : fit? (k * (n * n)) = none := by
  have hsquare : 2 ^ 63 < n * n := by
    have hge : 2 ^ 63 ≤ n * n := (fit?_eq_none_iff.mp hn).resolve_left (by nlinarith)
    have habs : n * n = |n| * |n| := (abs_mul_abs_self n).symm
    have hnonneg := abs_nonneg n
    have hroot : 3037000500 ≤ |n| := by nlinarith
    nlinarith
  rw [fit?_eq_none_iff]
  rcases hk.lt_or_gt with hk | hk
  · left
    nlinarith
  · right
    nlinarith

theorem ne_zero_of_mul? (h : mul? a b = none) : a.toInt ≠ 0 ∧ b.toInt ≠ 0 := by
  rw [mul?, fit?_eq_none_iff] at h
  constructor
  · intro ha
    simp [ha] at h
  · intro hb
    simp [hb] at h

theorem powFrom?_eq_bind {n k : Nat} (hn : n = 2 * k ∨ n = 2 * k + 1) (hk : k ≠ 0) (acc base : Int64) :
    powFrom? acc base n =
      (if n % 2 = 1 then mul? acc base else some acc).bind fun acc => (mul? base base).bind (powFrom? acc · k) := by
  rw [powFrom?, if_neg (by omega), if_neg (by omega), show n / 2 = k by omega]
  split <;> rfl

/-- Repeated squaring gives the power if it is in range, and only then. The product so far is zero only if nothing but
zeros is still to come: otherwise a square could be refused that does not count. -/
theorem powFrom?_eq (acc base : Int64) (n : Nat) (hacc : acc.toInt = 0 → base.toInt = 0) :
    powFrom? acc base n = fit? (acc.toInt * base.toInt ^ n) := by
  induction n using Nat.strongRecOn generalizing acc base with
  | ind n ih =>
    obtain ⟨k, hn⟩ := n.even_or_odd'
    by_cases hk : k = 0
    · subst hk
      rcases hn with rfl | rfl
      · rw [powFrom?, if_pos rfl, mul_zero, pow_zero, mul_one]
        exact (fit?_eq_some_iff.mpr rfl).symm
      · rw [powFrom?, if_neg (by decide), if_pos rfl, mul_zero, zero_add, pow_one, mul?]
    rw [powFrom?_eq_bind hn hk]
    -- The rest of the loop, from the square on, whether the square is in range or not.
    have rest : ∀ acc : Int64, (acc.toInt = 0 → base.toInt = 0) →
        (mul? base base).bind (powFrom? acc · k) = fit? (acc.toInt * base.toInt ^ (2 * k)) := by
      intro acc hacc
      cases hsquare : mul? base base with
      | none =>
        have hbase := (ne_zero_of_mul? hsquare).1
        have hk : acc.toInt * base.toInt ^ (2 * (k - 1)) ≠ 0 := mul_ne_zero (mt hacc hbase) (pow_ne_zero _ hbase)
        have hsplit := fit?_mul_square_eq_none hsquare hk
        rw [← pow_two, mul_assoc, ← pow_add, show 2 * (k - 1) + 2 = 2 * k by omega] at hsplit
        exact hsplit.symm
      | some s =>
        have hs : s.toInt = base.toInt * base.toInt := fit?_eq_some_iff.mp hsquare
        have hzero : acc.toInt = 0 → s.toInt = 0 := by
          intro h
          rw [hs, hacc h, mul_zero]
        rw [Option.bind_some, ih k (by omega) acc s hzero, hs, ← pow_two, ← pow_mul]
    rcases hn with rfl | rfl
    · rw [if_neg (by omega), Option.bind_some, rest acc hacc]
    · rw [if_pos (by omega), pow_succ', ← mul_assoc]
      cases hproduct : mul? acc base with
      | none =>
        exact (fit?_mul_eq_none hproduct ((even_two_mul k).pow_pos (ne_zero_of_mul? hproduct).2)).symm
      | some p =>
        have hp : p.toInt = acc.toInt * base.toInt := fit?_eq_some_iff.mp hproduct
        rw [Option.bind_some, rest p, hp]
        intro h
        rcases mul_eq_zero.mp (hp ▸ h) with h | h
        · exact hacc h
        · exact h

theorem pow?_eq (a : Int64) (n : Nat) : pow? a n = fit? (a.toInt ^ n) := by
  rw [pow?, powFrom?_eq 1 a n (by intro h; cases h)]
  exact congrArg fit? (one_mul _)

/-! ## Shifts -/

/-- The shift amount is the second operand modulo the width, whatever its sign. -/
theorem toNat_shiftAmount (b : Int64) : (shiftAmount b).toBitVec.toNat = (b.toInt % 64).toNat := by
  have hmask : (shiftAmount b).toBitVec.toNat = b.toBitVec.toNat % 64 := by
    rw [shiftAmount, Int64.toBitVec_and, BitVec.toNat_and]
    exact Nat.and_two_pow_sub_one_eq_mod _ 6
  have hsigned : b.toInt % 64 = (b.toBitVec.toNat : Int) % 64 := by
    rw [← Int64.toInt_toBitVec, BitVec.toInt_eq_toNat_cond]
    split <;> omega
  omega

theorem smod_shiftAmount (b : Int64) : (shiftAmount b).toBitVec.smod 64 = (shiftAmount b).toBitVec := by
  have hlt : (shiftAmount b).toBitVec.toNat < 64 := by
    rw [toNat_shiftAmount]
    omega
  have hmsb : (shiftAmount b).toBitVec.msb = false := by
    rw [BitVec.msb_eq_decide]
    simp only [decide_eq_false_iff_not]
    omega
  rw [BitVec.smod_eq, hmsb]
  apply BitVec.eq_of_toNat_eq
  exact Nat.mod_eq_of_lt hlt

theorem toInt_shiftLeft (a b : Int64) : (shiftLeft a b).toInt = (a.toInt * 2 ^ (b.toInt % 64).toNat).bmod (2 ^ 64) := by
  rw [shiftLeft, ← Int64.toInt_toBitVec, Int64.toBitVec_shiftLeft, smod_shiftAmount, BitVec.shiftLeft_eq',
    BitVec.toInt_shiftLeft, toNat_shiftAmount, Nat.shiftLeft_eq, ← Int64.toInt_toBitVec a,
    BitVec.toInt_eq_toNat_bmod, Int.bmod_mul_bmod]
  push_cast
  rfl

theorem toInt_shiftRight (a b : Int64) : (shiftRight a b).toInt = a.toInt.fdiv (2 ^ (b.toInt % 64).toNat) := by
  rw [shiftRight, ← Int64.toInt_toBitVec, Int64.toBitVec_shiftRight, smod_shiftAmount, BitVec.sshiftRight_eq',
    BitVec.toInt_sshiftRight, toNat_shiftAmount, Int.shiftRight_eq_div_pow, Int64.toInt_toBitVec,
    Int.fdiv_eq_ediv_of_nonneg _ (by positivity)]
  push_cast
  rfl

theorem toInt_shiftRightZero (a b : Int64) :
    (shiftRightZero a b).toInt = ((a.toInt % 2 ^ 64).fdiv (2 ^ (b.toInt % 64).toNat)).bmod (2 ^ 64) := by
  have hlt : (b.toInt % 64).toNat < 64 := by omega
  have hunsigned : a.toInt % 2 ^ 64 = a.toBitVec.toNat := by
    rw [← Int64.toInt_toBitVec, BitVec.toInt_eq_toNat_cond]
    split <;> omega
  rw [shiftRightZero, ← Int64.toInt_toBitVec, UInt64.toBitVec_toInt64, BitVec.toInt_eq_toNat_bmod, hunsigned,
    Int.fdiv_eq_ediv_of_nonneg _ (by positivity)]
  change ((a.toUInt64 >>> (shiftAmount b).toUInt64).toNat : Int).bmod _ = _
  rw [UInt64.toNat_shiftRight]
  change ((a.toBitVec.toNat >>> ((shiftAmount b).toBitVec.toNat % 64) : Nat) : Int).bmod _ = _
  rw [toNat_shiftAmount, Nat.mod_eq_of_lt hlt, Nat.shiftRight_eq_div_pow]
  push_cast
  rfl

end Number

/-! ## Operators -/

/-- Whether the 64-bit range has an integer. -/
def InRange (n : Int) : Prop := -2 ^ 63 ≤ n ∧ n < 2 ^ 63

instance (n : Int) : Decidable (InRange n) := inferInstanceAs (Decidable (_ ∧ _))

/-- An outcome is that of going on with the integer `n` if the range has it, and of an arithmetic fault if it has not. -/
def ExactThen {σ ε : Type} (o : Outcome σ ε Value) (n : Int) (next : Int64 → Outcome σ ε Value)
    (failed : Fault → Outcome σ ε Value) : Prop :=
  (InRange n → ∃ r : Int64, r.toInt = n ∧ o = next r) ∧ (¬ InRange n → ∃ what, o = failed (.arithmetic what))

/-- The computation gives exactly the integer `n`, or fails because the range has it not. -/
def Exact (x : HeapM Value) (n : Int) : Prop := ∀ h, ExactThen (x h) n (fun r => .ok (.int r) h) (.error · h)

namespace Operator

variable {a b : Int64}

theorem exact_checked (n : Int) : Exact (Run.ofExcept (checked (Number.fit? n))) n := by
  intro h
  cases hn : Number.fit? n with
  | some r =>
    have hr := Number.fit?_eq_some_iff.mp hn
    exact ⟨fun _ => ⟨r, hr, rfl⟩, fun hout => absurd (hr ▸ ⟨r.le_toInt, r.toInt_lt⟩) hout⟩
  | none =>
    rw [Number.fit?_eq_none_iff] at hn
    exact ⟨fun hin => by unfold InRange at hin; omega, fun _ => ⟨_, rfl⟩⟩

theorem apply_div (hb : b ≠ 0) : div.apply (.int a) (.int b) = Run.ofExcept (checked (Number.div? a b)) :=
  congrArg Run.ofExcept (if_neg hb)

theorem exact_div (a : Int64) (hb : b ≠ 0) : Exact (div.apply (.int a) (.int b)) (a.toInt.tdiv b.toInt) :=
  apply_div hb ▸ exact_checked _

theorem exact_pow (a : Int64) (hb : 0 ≤ b.toInt ∧ b.toInt < 2 ^ 32) :
    Exact (pow.apply (.int a) (.int b)) (a.toInt ^ b.toInt.toNat) := by
  have happly : pow.apply (.int a) (.int b) = Run.ofExcept (checked (Number.pow? a b.toInt.toNat)) :=
    congrArg Run.ofExcept (if_pos hb)
  exact happly ▸ Number.pow?_eq a _ ▸ exact_checked _

/-- An increment hands the exact sum to its target, or fails before it writes. -/
theorem exactThen_increment {ev : Evaluator} {f : Frame} {info : Info} {target : Target} {m m' : Machine}
    (hread : Eval.readTarget ev f info target m = .ok (.int a) m') (delta : Int64) (before : Bool) :
    ExactThen (Eval.increment ev f info target delta before m) (a.toInt + delta.toInt) (fun r => (do
        let stored ← Eval.writeTarget ev f info none (.int r) target
        pure (if before then stored else .int a)) m')
      (fun e => .error (f.errorIn info e) m') := by
  obtain ⟨hin, hout⟩ : ExactThen (add.apply (.int a) (.int delta) m'.store.heap) _ _ _ := exact_checked _ _
  unfold Eval.increment
  rw [Run.bind_ok hread]
  constructor
  · intro h
    obtain ⟨r, hr, hok⟩ := hin h
    refine ⟨r, hr, Run.bind_ok ?_ _⟩
    rw [Eval.applyOperator, EvalM.onHeap_apply, hok]
    rfl
  · intro h
    obtain ⟨what, herror⟩ := hout h
    refine ⟨what, Run.bind_error ?_ _⟩
    rw [Eval.applyOperator, EvalM.onHeap_apply, herror]
    rfl

def withVariable (m : Machine) (slot : SlotId) (v : Value) : Machine :=
  { m with store := { m.store with slots := m.store.slots.update slot fun b => { b with value := v } } }

theorem exactThen_increment_variable {f : Frame} {name : String} {m : Machine} {slot : SlotId}
    (hslot : m.store.resolve? f.scope name = some slot) (hint : m.store.binding slot = ⟨.int a, none⟩)
    (ev : Evaluator) (info : Info) (delta : Int64) (before : Bool) :
    ExactThen (Eval.increment ev f info (.name name) delta before m) (a.toInt + delta.toInt)
      (fun r => .ok (.int (if before then r else a)) (withVariable m slot (.int r)))
      (fun e => .error (f.errorIn info e) m) := by
  have hread : Eval.readTarget ev f info (.name name) m = .ok (.int a) m := by
    simp [Eval.readTarget, EvalM.onStore_apply, Frame.readName, Run.bind_apply, Store.lookup?, hslot, Store.value, hint]
  have hwrite (r : Int64) : Eval.writeTarget ev f info none (.int r) (.name name) m =
      .ok (.int r) (withVariable m slot (.int r)) := by
    simp [Eval.writeTarget, EvalM.onStore_apply, Frame.storeName, Run.bind_apply, hslot, Store.assign, hint,
      withVariable, -bind_pure_comp]
  obtain ⟨hin, hout⟩ := exactThen_increment hread delta before
  refine ⟨fun h => ?_, hout⟩
  obtain ⟨r, hr, hok⟩ := hin h
  refine ⟨r, hr, (hok.trans (Run.bind_ok (hwrite r) _)).trans ?_⟩
  cases before <;> rfl

/-- Integer arithmetic is exact or fails with an arithmetic fault, and shifts are what they do to the bits. -/
theorem integers_exact (a b : Int64) : Exact (add.apply (.int a) (.int b)) (a.toInt + b.toInt) ∧
    Exact (sub.apply (.int a) (.int b)) (a.toInt - b.toInt) ∧ Exact (mul.apply (.int a) (.int b)) (a.toInt * b.toInt) ∧
    (b ≠ 0 → Exact (div.apply (.int a) (.int b)) (a.toInt.tdiv b.toInt)) ∧
    (∀ h, ∃ what, div.apply (.int a) (.int 0) h = .error (.arithmetic what) h) ∧
    Exact (Run.ofExcept (UnaryOp.neg.apply (.int a))) (-a.toInt) ∧
    (0 ≤ b.toInt ∧ b.toInt < 2 ^ 32 → Exact (pow.apply (.int a) (.int b)) (a.toInt ^ b.toInt.toNat)) ∧
    -- Increments and decrements, by `b`.
    (∀ (ev : Evaluator) (f : Frame) (info : Info) (target : Target) (before : Bool) (m m' : Machine),
      Eval.readTarget ev f info target m = .ok (.int a) m' →
        ExactThen (Eval.increment ev f info target b before m) (a.toInt + b.toInt) (fun r => (do
            let stored ← Eval.writeTarget ev f info none (.int r) target
            pure (if before then stored else .int a)) m')
          (fun e => .error (f.errorIn info e) m')) ∧
    (∀ (ev : Evaluator) (f : Frame) (info : Info) (name : String) (slot : SlotId) (before : Bool) (m : Machine),
      m.store.resolve? f.scope name = some slot → m.store.binding slot = ⟨.int a, none⟩ →
        ExactThen (Eval.increment ev f info (.name name) b before m) (a.toInt + b.toInt)
          (fun r => .ok (.int (if before then r else a)) (withVariable m slot (.int r)))
          (fun e => .error (f.errorIn info e) m)) ∧ (∀ h, ∃ r : Int64, shl.apply (.int a) (.int b) h = .ok (.int r) h ∧
      r.toInt = (a.toInt * 2 ^ (b.toInt % 64).toNat).bmod (2 ^ 64)) ∧
    (∀ h, ∃ r : Int64, shr.apply (.int a) (.int b) h = .ok (.int r) h ∧
      r.toInt = a.toInt.fdiv (2 ^ (b.toInt % 64).toNat)) ∧
    (∀ h, ∃ r : Int64, ushr.apply (.int a) (.int b) h = .ok (.int r) h ∧
      r.toInt = ((a.toInt % 2 ^ 64).fdiv (2 ^ (b.toInt % 64).toNat)).bmod (2 ^ 64)) :=
  ⟨exact_checked _, exact_checked _, exact_checked _, exact_div a, fun _ => ⟨_, rfl⟩, exact_checked _, exact_pow a,
    fun _ _ _ _ before _ _ hread => exactThen_increment hread b before,
    fun ev _ info _ _ before _ hslot hint => exactThen_increment_variable hslot hint ev info b before,
    fun _ => ⟨_, rfl, Number.toInt_shiftLeft a b⟩, fun _ => ⟨_, rfl, Number.toInt_shiftRight a b⟩,
    fun _ => ⟨_, rfl, Number.toInt_shiftRightZero a b⟩⟩

theorem integers_exact_at_limits :
    (∃ r : Int64, r.toInt = (-2) ^ 63 ∧ pow.apply (.int (-2)) (.int 63) .empty = .ok (.int r) .empty) ∧
    (∃ what, div.apply (.int Int64.minValue) (.int (-1)) .empty = .error (.arithmetic what) .empty) ∧
    let f := Frame.nested .local
    let m : Machine := { Machine.start 0 with store := .nested }
    m.store.resolve? f.scope "x" = some 2 ∧ m.store.binding 2 = ⟨.int 3, none⟩ ∧ ∃ r : Int64, r.toInt = 2 ∧
        Eval.increment (fun _ _ => Run.never) f default (.name "x") (-1) true m =
          .ok (.int r) (withVariable m 2 (.int r)) := by
  obtain ⟨-, -, -, -, -, -, hpow, -⟩ := integers_exact (-2) 63
  obtain ⟨-, -, -, hdiv, -⟩ := integers_exact Int64.minValue (-1)
  obtain ⟨-, -, -, -, -, -, -, -, hvariable, -⟩ := integers_exact 3 (-1)
  have hslot : (Store.nested).resolve? (Frame.nested .local).scope "x" = some 2 := by decide +kernel
  have hbinding : (Store.nested).binding 2 = ⟨.int 3, none⟩ := by decide +kernel
  obtain ⟨r, hr, hleast⟩ := (hpow (by decide) .empty).1 (by decide)
  obtain ⟨k, hk, hlower⟩ := (hvariable (fun _ _ => Run.never) (.nested .local) default "x" 2 true
    { Machine.start 0 with store := .nested } hslot hbinding).1 (by decide)
  exact ⟨⟨r, hr.trans (by decide), hleast⟩, (hdiv (by decide) .empty).2 (by decide), hslot, hbinding,
    k, hk.trans (by decide), hlower⟩

/-! ## Remainders -/

/-- `r` is what is left of `a` in division by `b` toward zero: it has the sign of `a`. -/
structure IsRemainder (a b r : Int) : Prop where
  small : r.natAbs < b.natAbs
  divides : b ∣ a - r
  nonneg : 0 ≤ a → 0 ≤ r
  nonpos : a ≤ 0 → r ≤ 0

theorem isRemainder_tmod (a : Int) {b : Int} (hb : b ≠ 0) : IsRemainder a b (a.tmod b) where
  small := by
    rw [Int.natAbs_tmod]
    exact Nat.mod_lt _ (Int.natAbs_pos.mpr hb)
  divides := Int.dvd_self_sub_tmod
  nonneg := Int.tmod_nonneg b
  nonpos h := by
    have hneg := Int.tmod_nonneg b (Int.neg_nonneg_of_nonpos h)
    rw [Int.neg_tmod] at hneg
    omega

theorem toInt_ne_zero (hb : b ≠ 0) : b.toInt ≠ 0 := fun h => hb (Int64.toInt_inj.mp h)

/-- The quotient is out of range for one pair of operands only. -/
theorem div?_eq_none_iff (hb : b ≠ 0) : Number.div? a b = none ↔ a = Int64.minValue ∧ b = -1 := by
  have ha := a.le_toInt
  have ha' := a.toInt_lt
  rw [Number.div?, Number.fit?_eq_none_iff]
  constructor
  · intro h
    have habs := Int.natAbs_tdiv a.toInt b.toInt
    have hone : b.toInt.natAbs = 1 := by
      by_contra hone
      have hb := toInt_ne_zero hb
      have hhalf : a.toInt.natAbs / b.toInt.natAbs ≤ a.toInt.natAbs / 2 := Nat.div_le_div_left (by omega) (by decide)
      change _ = a.toInt.natAbs / b.toInt.natAbs at habs
      omega
    obtain hb | hb := Int.natAbs_eq_iff.mp hone
    · rw [hb, Nat.cast_one, Int.tdiv_one] at h
      omega
    · rw [hb, Int.tdiv_neg, Nat.cast_one, Int.tdiv_one] at h
      exact ⟨Int64.toInt_inj.mp (by rw [Int64.toInt_minValue]; omega), Int64.toInt_inj.mp hb⟩
  · rintro ⟨rfl, rfl⟩
    decide

/-- The remainder is given together with the quotient, and is in range. -/
theorem apply_rem_of_div? {q : Int64} (hb : b ≠ 0) (hq : Number.div? a b = some q) (h : Heap) :
    ∃ r : Int64, r.toInt = a.toInt.tmod b.toInt ∧ rem.apply (.int a) (.int b) h = .ok (.int r) h := by
  have happly : rem.apply (.int a) (.int b) = Run.ofExcept (checked (Number.rem? a b)) :=
    congrArg Run.ofExcept (if_neg hb)
  have hsmall := (isRemainder_tmod a.toInt (toInt_ne_zero hb)).small
  have hle := b.le_toInt
  have hlt := b.toInt_lt
  refine ⟨Int64.ofInt (a.toInt.tmod b.toInt), Int64.toInt_ofInt_of_le (by omega) (by omega), ?_⟩
  rw [happly, Number.rem?, hq]
  rfl

/-- A remainder is what is left in division toward zero, and makes up for what division drops. It is refused where the
quotient is out of range, and there only. -/
theorem remainder_given_with_quotient (a b : Int64) (hb : b ≠ 0) : (¬ (a = Int64.minValue ∧ b = -1) → ∀ h, ∃ r : Int64,
      rem.apply (.int a) (.int b) h = .ok (.int r) h ∧ IsRemainder a.toInt b.toInt r.toInt) ∧
    (a = Int64.minValue ∧ b = -1 → ∀ h, ∃ what, rem.apply (.int a) (.int b) h = .error (.arithmetic what) h) ∧
    ∀ q h h', div.apply (.int a) (.int b) h = .ok q h' → ∃ p r, mul.apply q (.int b) h' = .ok p h' ∧
      rem.apply (.int a) (.int b) h' = .ok r h' ∧ add.apply p r h' = .ok (.int a) h' := by
  refine ⟨fun hfits h => ?_, fun hmin h => ?_, fun q h h' hdiv => ?_⟩
  · obtain ⟨q, hq⟩ := Option.ne_none_iff_exists'.mp (mt (div?_eq_none_iff hb).mp hfits)
    obtain ⟨r, hr, hok⟩ := apply_rem_of_div? hb hq h
    exact ⟨r, hok, hr ▸ isRemainder_tmod _ (toInt_ne_zero hb)⟩
  · obtain ⟨rfl, rfl⟩ := hmin
    exact ⟨_, rfl⟩
  · cases hq : Number.div? a b with
    | none => simp [apply_div hb, hq, checked, Run.ofExcept] at hdiv
    | some k =>
      obtain ⟨rfl, rfl⟩ : q = .int k ∧ h' = h := by
        simpa [apply_div hb, hq, checked, Run.ofExcept, Run.pure, eq_comm] using hdiv
      obtain ⟨r, hr, hrem⟩ := apply_rem_of_div? hb hq h'
      have hsum : k.toInt * b.toInt + r.toInt = a.toInt := by
        rw [hr, Number.fit?_eq_some_iff.mp hq]
        exact Int.tdiv_mul_add_tmod _ _
      -- The remainder has the sign of the dividend, so what it leaves of it is in range.
      have hproduct : InRange (k.toInt * b.toInt) := by
        obtain ⟨hsmall, -, hnonneg, hnonpos⟩ := hr ▸ isRemainder_tmod a.toInt (toInt_ne_zero hb)
        have := a.le_toInt
        have := a.toInt_lt
        have := b.le_toInt
        have := b.toInt_lt
        unfold InRange
        omega
      obtain ⟨p, hp, hmul⟩ := (exact_checked _ h').1 hproduct
      obtain ⟨s, hs, hadd⟩ := (exact_checked (p.toInt + r.toInt) h').1 (by rw [hp, hsum]; exact ⟨a.le_toInt, a.toInt_lt⟩)
      obtain rfl : s = a := Int64.toInt_inj.mp (by omega)
      exact ⟨.int p, .int r, hmul, hrem, hadd⟩

theorem remainder_given_with_quotient_negative :
    (2 : Int64) ≠ 0 ∧ ¬ ((-7 : Int64) = Int64.minValue ∧ (2 : Int64) = -1) ∧
    (∃ r : Int64, rem.apply (.int (-7)) (.int 2) .empty = .ok (.int r) .empty ∧
      IsRemainder (Int64.toInt (-7)) (Int64.toInt 2) r.toInt) ∧
    div.apply (.int (-7)) (.int 2) .empty = .ok (.int (-3)) .empty ∧
    ∃ p r, mul.apply (.int (-3)) (.int 2) .empty = .ok p .empty ∧ rem.apply (.int (-7)) (.int 2) .empty = .ok r .empty ∧
      add.apply p r .empty = .ok (.int (-7)) .empty := by
  have hb : (2 : Int64) ≠ 0 := by decide
  have hfits : ¬ ((-7 : Int64) = Int64.minValue ∧ (2 : Int64) = -1) := by decide
  have hdiv : div.apply (.int (-7)) (.int 2) .empty = .ok (.int (-3)) .empty := by rfl
  obtain ⟨hrem, -, hidentity⟩ := remainder_given_with_quotient (-7) 2 hb
  exact ⟨hb, hfits, hrem hfits .empty, hdiv, hidentity _ _ _ hdiv⟩

/-- The least integer has a remainder by minus one, but not here. -/
theorem remainder_refused_at_limit : (-1 : Int64) ≠ 0 ∧ IsRemainder Int64.minValue.toInt (Int64.toInt (-1)) 0 ∧
      rem.apply (.int Int64.minValue) (.int (-1)) .empty = .error .overflow .empty :=
  ⟨by decide, isRemainder_tmod Int64.minValue.toInt (by decide), rfl⟩

end Operator

end PathScript
