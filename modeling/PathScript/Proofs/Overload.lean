import Mathlib
import PathScript.Class

/-! # The choice between overloads

Candidates are tried in the order of their declaration, and one is taken if it
fits better than the best before it. What is kept at each step is that the best so
far fits, no worse than all candidates tried and better than those before it. -/

namespace PathScript

variable {σ : Type} {params : σ → List Ty} {args : List Ty}

/-- There are as many parameters as arguments, and each accepts its argument. -/
def Applicable (params args : List Ty) : Prop := List.Forall₂ (fun p a => (p.conformance a).accepts = true) params args

/-- How well each argument fits its parameter. -/
def conformances (params args : List Ty) : List Conformance := List.zipWith Ty.conformance params args

theorem applicable_iff {params args : List Ty} :
    Applicable params args ↔ params.length = args.length ∧ (conformances params args).all Conformance.accepts = true := by
  rw [Applicable, conformances, List.forall₂_iff_zip, ← List.map_uncurry_zip_eq_zipWith]
  simp

theorem fits?_eq_some_iff {params args : List Ty} {fit : List Conformance} :
    fits? params args = some fit ↔ Applicable params args ∧ fit = conformances params args := by
  unfold fits?
  rw [applicable_iff]
  split
  next hlength =>
    dsimp only
    split
    next hall => simp [hlength, hall, conformances, eq_comm]
    next hall => simp [hall, conformances]
  next hlength => simp [hlength]

theorem fits?_eq_none_iff {params args : List Ty} : fits? params args = none ↔ ¬ Applicable params args := by
  rw [Option.eq_none_iff_forall_ne_some]
  simp [fits?_eq_some_iff]

/-- The sum of the weights of a candidate's parameters. -/
def weight (params args : List Ty) : Nat := ((conformances params args).map Conformance.score).sum

theorem totalScore_conformances (params args : List Ty) : totalScore (conformances params args) = weight params args := by
  rw [totalScore, weight, List.sum_eq_foldl, List.foldl_map]

/-- The candidate is the first of those that fit best among the ones given. -/
structure IsBest (params : σ → List Ty) (args : List Ty) (candidates : List σ) (best : Resolved σ) : Prop where
  applicable : Applicable (params best.member) args
  conformance : best.conformance = conformances (params best.member) args
  first : ∃ before after, candidates = before ++ best.member :: after ∧
    ∀ c ∈ before, Applicable (params c) args → weight (params c) args < weight (params best.member) args
  best : ∀ c ∈ candidates, Applicable (params c) args → weight (params c) args ≤ weight (params best.member) args

/-- What is known of the candidates tried so far. -/
def BestSoFar (params : σ → List Ty) (args : List Ty) (seen : List σ) : Option (Resolved σ) → Prop
  | none => ∀ c ∈ seen, ¬ Applicable (params c) args
  | some b => IsBest params args seen b

theorem IsBest.snoc {seen : List σ} {b : Resolved σ} (hb : IsBest params args seen b) {c : σ}
    (hc : Applicable (params c) args → weight (params c) args ≤ weight (params b.member) args) :
    IsBest params args (seen ++ [c]) b := by
  obtain ⟨before, after, rfl, hfirst⟩ := hb.first
  refine ⟨hb.applicable, hb.conformance, ⟨before, after ++ [c], by simp, hfirst⟩, fun d hd => ?_⟩
  rcases List.mem_append.mp hd with hd | hd
  · exact hb.best d hd
  · exact List.mem_singleton.mp hd ▸ hc

theorem isBest_snoc {seen : List σ} {c : σ} (hc : Applicable (params c) args)
    (hseen : ∀ d ∈ seen, Applicable (params d) args → weight (params d) args < weight (params c) args) :
    IsBest params args (seen ++ [c]) ⟨c, conformances (params c) args⟩ := by
  refine ⟨hc, rfl, ⟨seen, [], rfl, hseen⟩, fun d hd happ => ?_⟩
  rcases List.mem_append.mp hd with hd | hd
  · exact Nat.le_of_lt (hseen d hd happ)
  · exact List.mem_singleton.mp hd ▸ Nat.le_refl _

theorem BestSoFar.step {seen : List σ} {best : Option (Resolved σ)} (hbest : BestSoFar params args seen best) (c : σ) :
    BestSoFar params args (seen ++ [c]) (betterOf params args best c) := by
  unfold betterOf
  cases hfit : fits? (params c) args with
  | none =>
    have hc := fits?_eq_none_iff.mp hfit
    cases best with
    | none =>
      intro d hd
      rcases List.mem_append.mp hd with hd | hd
      · exact hbest d hd
      · exact List.mem_singleton.mp hd ▸ hc
    | some b => exact hbest.snoc fun h => absurd h hc
  | some fit =>
    obtain ⟨hc, rfl⟩ := fits?_eq_some_iff.mp hfit
    cases best with
    | none => exact isBest_snoc hc fun d hd h => absurd h (hbest d hd)
    | some b =>
      dsimp only
      rw [hbest.conformance, totalScore_conformances, totalScore_conformances]
      split
      next hlt => exact isBest_snoc hc fun d hd h => Nat.lt_of_le_of_lt (hbest.best d hd h) hlt
      next hle => exact hbest.snoc fun _ => Nat.le_of_not_lt hle

end PathScript
