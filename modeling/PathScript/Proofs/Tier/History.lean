import PathScript.Access.Site

/-! # Tiers over time

A reading of a path plans what to do, then evaluates, then notes how a promotion
ended. The evaluation in between can read the same path again, can fail, and can
evict every unit. What is said here is about *histories*: calls and returns in
any nesting, at times that never decrease, with any generation and any ending of
each promotion.

The state has a counter and a window; a history has a tally, which lists when
the readings were that count. That the counter is the length of the tally, and
its window the time the tally was started, is the invariant that carries
everything else. -/

namespace PathScript

/-! ## Histories -/

/-- The plan for a reading at a time and in a generation, and the state it leaves. -/
def TierState.plan (t : TierState) (config : Config) (now generation : Nat) : ReadPlan × TierState :=
  match t.live? generation with
  | some u => (.run u, t)
  | none => t.advance config now

/-- The readings that count, the last first, and since when they are counted. -/
structure Tally where
  since : Nat
  counted : List Nat

namespace Tally

/-- Nothing is counted yet. -/
def restart (now : Nat) : Tally := ⟨now, []⟩

/-- The tally after a reading without a live unit. Within the window the reading counts; behind it the tally starts
again, without it. -/
def note (config : Config) (now : Nat) (t : Tally) : Tally :=
  if now < t.since + config.timeSpan then { t with counted := now :: t.counted } else restart now

end Tally

/-- A path that is specialised when it is read often, in the course of its readings. -/
structure TierRun where
  tier : TierState
  tally : Tally
  /-- The readings that have not returned, the last first. -/
  running : List ReadPlan
  /-- The time of the last event. -/
  clock : Nat

namespace TierRun

/-- A path that has not been read. -/
def fresh (now : Nat) : TierRun := ⟨.fresh now, .restart now, [], now⟩

/-- The tally that a reading without a live unit finds: that of a unit which is lost starts again. -/
def found (s : TierRun) (now : Nat) : Tally := if s.tier.current.isSome then .restart now else s.tally

/-- Whether a reading counts: no live unit is there, and the window is not over. -/
def Counts (s : TierRun) (config : Config) (now generation : Nat) : Prop :=
  (∀ u, s.tier.current ≠ some (u, generation)) ∧ now < (s.found now).since + config.timeSpan

/-- The start of a reading. -/
def call (s : TierRun) (config : Config) (now generation : Nat) : TierRun :=
  { tier := (s.tier.plan config now generation).2
    tally := if (s.tier.live? generation).isSome then s.tally else (s.found now).note config now
    running := (s.tier.plan config now generation).1 :: s.running
    clock := now }

/-- The end of the last reading that has not returned. A promotion fails, gives a unit of some generation, or finds
that its unit was evicted. -/
inductive Return : TierRun → TierRun → Prop where
  | run {s : TierRun} {u : SpecializedUnit} {outer : List ReadPlan} (top : s.running = .run u :: outer) :
      Return s { s with running := outer }
  | walk {s : TierRun} {outer : List ReadPlan} (top : s.running = .walk :: outer) :
      Return s { s with running := outer }
  | failed {s : TierRun} {outer : List ReadPlan} (top : s.running = .specialize :: outer) :
      Return s { s with tier := s.tier.failed, running := outer }
  | promoted {s : TierRun} {outer : List ReadPlan} (top : s.running = .specialize :: outer) (u : SpecializedUnit)
      (generation : Nat) : Return s { s with tier := s.tier.promoted u generation, running := outer }
  | dropped {s : TierRun} {outer : List ReadPlan} (top : s.running = .specialize :: outer) {now : Nat}
      (le : s.clock ≤ now) : Return s ⟨s.tier.dropped now, .restart now, outer, now⟩

/-- What calls and returns lead to, at times that do not decrease. -/
inductive History (config : Config) : TierRun → Prop where
  | fresh (now : Nat) : History config (fresh now)
  | call {s : TierRun} {now : Nat} (before : History config s) (le : s.clock ≤ now) (generation : Nat) :
      History config (s.call config now generation)
  | returned {s t : TierRun} (before : History config s) (ret : Return s t) : History config t

/-! ## The invariant -/

/-- What the state of a path has to do with its history. -/
structure Consistent (config : Config) (s : TierRun) : Prop where
  /-- The counter counts, as far as it can count. -/
  count : s.tier.count = min s.tally.counted.length TierState.maxCount
  window : s.tier.windowStart = s.tally.since
  since : s.tally.since ≤ s.clock
  /-- All readings that count were within the window. -/
  counted : ∀ t ∈ s.tally.counted, s.tally.since ≤ t ∧ t < s.tally.since + config.timeSpan
  /-- The flag is set exactly while a promotion has not returned. -/
  promoting : s.tier.promoting = true ↔ .specialize ∈ s.running
  /-- No promotion is started inside of another. -/
  single : s.running.Pairwise fun inner outer => ¬(inner = .specialize ∧ outer = .specialize)

end TierRun

namespace TierState

variable {t : TierState} {config : Config} {now generation : Nat}

theorem live?_eq_some_iff {u : SpecializedUnit} : t.live? generation = some u ↔ t.current = some (u, generation) := by
  unfold live?
  cases t.current with
  | none => simp
  | some c =>
    obtain ⟨v, g⟩ := c
    by_cases h : g = generation <;> simp [h]

theorem plan_of_live {u : SpecializedUnit} (h : t.current = some (u, generation)) :
    t.plan config now generation = (.run u, t) := by
  unfold plan
  rw [live?_eq_some_iff.mpr h]

theorem plan_of_not_live (h : ∀ u, t.current ≠ some (u, generation)) :
    t.plan config now generation = t.advance config now := by
  have hlive : t.live? generation = none :=
    Option.eq_none_iff_forall_ne_some.mpr fun u hu => h u (live?_eq_some_iff.mp hu)
  unfold plan
  rw [hlive]

@[simp] theorem current_deoptimized : (t.deoptimized now).current = none := by
  unfold deoptimized
  cases h : t.current with
  | none => exact h
  | some c => rfl

@[simp] theorem promoting_deoptimized : (t.deoptimized now).promoting = t.promoting := by
  unfold deoptimized
  cases t.current <;> rfl

theorem current_advance : (t.advance config now).2.current = none := by
  simp only [advance]
  split
  · exact current_deoptimized
  · split <;> exact current_deoptimized

theorem advance_ne_run (u : SpecializedUnit) : (t.advance config now).1 ≠ .run u := by
  simp only [advance]
  split
  · simp
  · split <;> simp

/-- Behind the window a reading is not counted, and the window starts again. -/
theorem advance_behind (h : (t.deoptimized now).windowStart + config.timeSpan ≤ now) :
    t.advance config now = (.walk, { t.deoptimized now with count := 0, windowStart := now }) := by
  simp only [advance]
  rw [if_pos (by omega)]

/-- Within the window a reading is counted, and the path promoted if it is hot and not being promoted already. -/
theorem advance_within (h : now < (t.deoptimized now).windowStart + config.timeSpan)
    (hle : (t.deoptimized now).windowStart ≤ now) : t.advance config now =
      if config.tenuringThreshold < min ((t.deoptimized now).count + 1) maxCount ∧ t.promoting = false then
        (.specialize, { t.deoptimized now with
          count := min ((t.deoptimized now).count + 1) maxCount
          promoting := true })
      else (.walk, { t.deoptimized now with count := min ((t.deoptimized now).count + 1) maxCount }) := by
  simp only [advance]
  rw [if_neg (by omega)]
  simp

end TierState

namespace TierRun

variable {config : Config} {s t : TierRun} {now generation : Nat}

/-- The tally that a reading without a live unit finds is that of the state it finds. -/
theorem Consistent.found (h : s.Consistent config) (hnow : s.clock ≤ now) :
    (s.tier.deoptimized now).count = min (s.found now).counted.length TierState.maxCount ∧
      (s.tier.deoptimized now).windowStart = (s.found now).since ∧ (s.found now).since ≤ now ∧
      ∀ t ∈ (s.found now).counted, (s.found now).since ≤ t ∧ t < (s.found now).since + config.timeSpan := by
  unfold TierState.deoptimized TierRun.found
  cases hc : s.tier.current with
  | none => exact ⟨h.count, h.window, Nat.le_trans h.since hnow, h.counted⟩
  | some c => exact ⟨by simp [Tally.restart], rfl, Nat.le_refl _, by simp [Tally.restart]⟩

/-- A reading that counts makes the path hot if with it more readings count than the threshold says, as far as the
counter can count. -/
def Hot (s : TierRun) (config : Config) (now : Nat) : Prop :=
  config.tenuringThreshold < min ((s.found now).counted.length + 1) TierState.maxCount

/-- The state that a reading leaves which counts. -/
def counting (s : TierRun) (now : Nat) (plan : ReadPlan) (promoting : Bool) : TierRun :=
  { tier := { s.tier.deoptimized now with
      count := min ((s.found now).counted.length + 1) TierState.maxCount
      promoting := promoting }
    tally := { s.found now with counted := now :: (s.found now).counted }
    running := plan :: s.running
    clock := now }

theorem call_cases (hc : s.Consistent config) (hnow : s.clock ≤ now) (generation : Nat) :
    (∃ u, s.tier.current = some (u, generation) ∧
      s.call config now generation = { s with running := .run u :: s.running, clock := now }) ∨
    ((∀ u, s.tier.current ≠ some (u, generation)) ∧ (s.found now).since + config.timeSpan ≤ now ∧
      s.call config now generation =
        ⟨{ s.tier.deoptimized now with count := 0, windowStart := now }, .restart now, .walk :: s.running, now⟩) ∨
    (s.Counts config now generation ∧ (s.Hot config now ∧ s.tier.promoting = false) ∧
      s.call config now generation = s.counting now .specialize true) ∨
    (s.Counts config now generation ∧ ¬(s.Hot config now ∧ s.tier.promoting = false) ∧
      s.call config now generation = s.counting now .walk s.tier.promoting) := by
  obtain ⟨hcount, hstart, hsince, -⟩ := hc.found hnow
  by_cases hu : ∃ u, s.tier.current = some (u, generation)
  · obtain ⟨u, hu⟩ := hu
    refine .inl ⟨u, hu, ?_⟩
    unfold call
    rw [TierState.plan_of_live hu, TierState.live?_eq_some_iff.mpr hu]
    rfl
  · have hnot : ∀ u, s.tier.current ≠ some (u, generation) := fun u h => hu ⟨u, h⟩
    have hlive : s.tier.live? generation = none :=
      Option.eq_none_iff_forall_ne_some.mpr fun u h => hnot u (TierState.live?_eq_some_iff.mp h)
    by_cases hw : now < (s.found now).since + config.timeSpan
    -- The state's count stops at `maxCount`; the tally goes on.
    · have hcap : min ((s.tier.deoptimized now).count + 1) TierState.maxCount =
          min ((s.found now).counted.length + 1) TierState.maxCount := by omega
      have hadvance : s.tier.advance config now = _ := TierState.advance_within (by omega) (by omega)
      rw [hcap] at hadvance
      by_cases hot : s.Hot config now ∧ s.tier.promoting = false
      · refine .inr (.inr (.inl ⟨⟨hnot, hw⟩, hot, ?_⟩))
        have hplan := hadvance.trans (if_pos hot)
        unfold call
        rw [TierState.plan_of_not_live hnot, hplan, hlive]
        simp [counting, Tally.note, hw]
      · refine .inr (.inr (.inr ⟨⟨hnot, hw⟩, hot, ?_⟩))
        have hplan := hadvance.trans (if_neg hot)
        unfold call
        rw [TierState.plan_of_not_live hnot, hplan, hlive]
        simp [counting, Tally.note, hw]
    · refine .inr (.inl ⟨hnot, Nat.le_of_not_lt hw, ?_⟩)
      unfold call
      rw [TierState.plan_of_not_live hnot, TierState.advance_behind (by omega), hlive]
      simp [Tally.note, hw]

theorem Consistent.specialize_not_mem (h : s.Consistent config) (hp : s.tier.promoting = false) :
    .specialize ∉ s.running :=
  fun hmem => by simp [h.promoting.mpr hmem] at hp

theorem Consistent.counting {plan : ReadPlan} {promoting : Bool} (h : s.Consistent config) (hnow : s.clock ≤ now)
    (hw : now < (s.found now).since + config.timeSpan) (hp : promoting = true ↔ .specialize ∈ plan :: s.running)
    (hs : plan = .specialize → .specialize ∉ s.running) : (s.counting now plan promoting).Consistent config := by
  obtain ⟨-, hstart, hsince, hcounted⟩ := h.found hnow
  refine ⟨rfl, hstart, hsince, ?_, hp, List.pairwise_cons.mpr ⟨?_, h.single⟩⟩
  · intro t ht
    rcases List.mem_cons.mp ht with rfl | ht
    · exact ⟨hsince, hw⟩
    · exact hcounted t ht
  · rintro outer ho ⟨rfl, rfl⟩
    exact hs rfl ho

theorem Consistent.call (h : s.Consistent config) (hnow : s.clock ≤ now) (generation : Nat) :
    (s.call config now generation).Consistent config := by
  rcases call_cases h hnow generation with ⟨u, -, e⟩ | ⟨-, -, e⟩ | ⟨⟨-, hw⟩, ⟨-, hp⟩, e⟩ | ⟨⟨-, hw⟩, -, e⟩
  all_goals rw [e]
  · refine ⟨h.count, h.window, Nat.le_trans h.since hnow, h.counted, ?_, List.pairwise_cons.mpr ⟨?_, h.single⟩⟩
    · simpa using h.promoting
    · rintro outer - ⟨hu, -⟩
      cases hu
  · refine ⟨by simp [Tally.restart], rfl, Nat.le_refl _, by simp [Tally.restart], ?_,
      List.pairwise_cons.mpr ⟨?_, h.single⟩⟩
    · simpa using h.promoting
    · rintro outer - ⟨hw, -⟩
      cases hw
  · exact h.counting hnow hw (by simp) fun _ => h.specialize_not_mem hp
  · exact h.counting hnow hw (by simpa using h.promoting) (by simp)

theorem Consistent.returned (h : s.Consistent config) (hr : Return s t) : t.Consistent config := by
  -- Of the readings that have not returned, one promotion at most is left when another reading returns, and none
  -- when that promotion does.
  have pop : ∀ {plan outer}, s.running = plan :: outer → outer.Pairwise _ := fun top =>
    (List.pairwise_cons.mp (top ▸ h.single)).2
  have last : ∀ {outer}, s.running = .specialize :: outer → .specialize ∉ outer := by
    intro outer top hmem
    have hsingle := h.single
    rw [top] at hsingle
    exact (List.pairwise_cons.mp hsingle).1 _ hmem ⟨rfl, rfl⟩
  cases hr with
  | run top => exact ⟨h.count, h.window, h.since, h.counted, by simpa [top] using h.promoting, pop top⟩
  | walk top => exact ⟨h.count, h.window, h.since, h.counted, by simpa [top] using h.promoting, pop top⟩
  | failed top =>
    exact ⟨h.count, h.window, h.since, h.counted, by simpa [TierState.failed] using last top, pop top⟩
  | promoted top u generation =>
    exact ⟨h.count, h.window, h.since, h.counted, by simpa [TierState.promoted] using last top, pop top⟩
  | dropped top le =>
    exact ⟨by simp [TierState.dropped, Tally.restart], rfl, Nat.le_refl _, by simp [Tally.restart],
      by simpa [TierState.dropped] using last top, pop top⟩

end TierRun

end PathScript
