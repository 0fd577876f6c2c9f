import PathScript.Access.Unit

/-! # Registries over time

A place that keeps a unit decides by the generation alone whether the unit is
still good. What is said here is about whole courses of requests to a registry,
in any order and with any ceilings. A registry counts without bound, while a
counter of a machine is a word that comes round after `2 ^ 64` steps; the
results are about the words. -/

namespace PathScript.UnitRegistry

variable {U : Type}

/-! ## Courses of requests -/

/-- What can be asked of a registry. -/
inductive Request (U : Type) where
  | lookup (k : UnitKey)
  | register (k : UnitKey) (u : U)
  | evictAll
  | setCeiling (n : Nat)

inductive Reply (U : Type) where
  | found (unit : Option (U × Nat))
  | registered (outcome : Registration U)
  /-- How many units an eviction has dropped. -/
  | dropped (count : Nat)
  | done

/-- The answer to a request, and the registry behind it. -/
def respond (r : UnitRegistry U) : Request U → Reply U × UnitRegistry U
  | .lookup k => (.found (r.lookup k).1, (r.lookup k).2)
  | .register k u => (.registered (r.register k u).1, (r.register k u).2)
  | .evictAll => (.dropped r.evictAll.1, r.evictAll.2)
  | .setCeiling n => (.done, r.setCeiling n)

/-- A request, and the registry it was put to. -/
structure Exchange (U : Type) where
  before : UnitRegistry U
  request : Request U

namespace Exchange

def reply (e : Exchange U) : Reply U := (e.before.respond e.request).1

def next (e : Exchange U) : UnitRegistry U := (e.before.respond e.request).2

def installs (e : Exchange U) : Bool :=
  match e.reply with
  | .registered (.installed _ _) => true
  | _ => false

/-- Whether all units were dropped, on request or because of the ceiling. -/
def evicts (e : Exchange U) : Bool :=
  match e.reply with
  | .registered (.evicted _) | .dropped _ => true
  | _ => false

def dropped (e : Exchange U) : Nat := if e.evicts then e.before.live else 0

/-- How many units were dropped in all of them. -/
def droppedIn (es : List (Exchange U)) : Nat := es.foldr (fun e n => e.dropped + n) 0

/-- The unit that was handed out, with its key and the generation it was handed out under. -/
def handed? (e : Exchange U) : Option (UnitKey × U × Nat) :=
  match e.request, e.reply with
  | .lookup k, .found (some (u, g)) => some (k, u, g)
  | .register k _, .registered (.installed u g) => some (k, u, g)
  | .register k _, .registered (.existing u g) => some (k, u, g)
  | _, _ => none

end Exchange

/-- The registry behind a course of requests. -/
def after (r : UnitRegistry U) : List (Request U) → UnitRegistry U
  | [] => r
  | q :: rest => after (Exchange.next ⟨r, q⟩) rest

/-- A course of requests, each with the registry it was put to. -/
def log (r : UnitRegistry U) : List (Request U) → List (Exchange U)
  | [] => []
  | q :: rest => ⟨r, q⟩ :: log (Exchange.next ⟨r, q⟩) rest

/-- The ceiling that a request sets. -/
def Request.ceiling? : Request U → Option Nat
  | setCeiling n => some n
  | _ => none

/-- The ceiling in force behind a course of requests: the last one set. -/
def inForce (ceiling : Nat) (requests : List (Request U)) : Nat :=
  (requests.filterMap Request.ceiling?).getLastD ceiling

/-- What a word of 64 bits holds that has been counted up to a number. -/
def word (count : Nat) : UInt64 := .ofNat count

/-! ## One request -/

variable {r : UnitRegistry U} {k : UnitKey} {u : U} {g : Nat}

/-- All that a request can do: nothing to the units, store one under a key that has none, or drop all of them. -/
theorem Exchange.cases (e : Exchange U) : (e.installs = false ∧ e.evicts = false ∧ e.next.units = e.before.units ∧
      e.next.generation = e.before.generation ∧ e.next.installed = e.before.installed ∧
      e.next.evictions = e.before.evictions) ∨
    (e.installs = true ∧ e.evicts = false ∧ e.before.live + 1 ≤ e.before.ceiling ∧ ∃ k u, e.before.find? k = none ∧
        e.next = { e.before with units := (k, u) :: e.before.units, installed := e.before.installed + 1 }) ∨
    (e.installs = false ∧ e.evicts = true ∧ e.next = e.before.evictAll.2) := by
  obtain ⟨r, q⟩ := e
  cases q with
  | lookup k =>
    refine .inl ?_
    cases hk : r.find? k <;> simp [installs, evicts, reply, next, respond, UnitRegistry.lookup, hk]
  | evictAll => exact .inr (.inr ⟨rfl, rfl, rfl⟩)
  | setCeiling n => exact .inl ⟨rfl, rfl, rfl, rfl, rfl, rfl⟩
  | register k u =>
    cases hk : r.find? k with
    | some found => exact .inl (by simp [installs, evicts, reply, next, respond, UnitRegistry.register, hk])
    | none =>
      by_cases hc : r.ceiling < r.live + 1
      · refine .inr (.inr ?_)
        simp [installs, evicts, reply, next, respond, UnitRegistry.register, hk, hc]
      · refine .inr (.inl ?_)
        have hle : r.live + 1 ≤ r.ceiling := Nat.le_of_not_lt hc
        have hroom : r.register k u = (.installed u r.generation,
            { r with units := (k, u) :: r.units, installed := r.installed + 1 }) := by
          simp only [UnitRegistry.register, hk, if_neg hc]
        simp only [installs, evicts, reply, next, respond, hroom]
        exact ⟨trivial, trivial, hle, k, u, hk, rfl⟩

theorem find?_cons {k' : UnitKey} {u' : U} {units : List (UnitKey × U)} {ceiling generation installed reused evictions}
    (hk' : find? ⟨units, ceiling, generation, installed, reused, evictions⟩ k' = none) {installed' : Nat}
    (h : find? ⟨units, ceiling, generation, installed, reused, evictions⟩ k = some u) :
    find? ⟨(k', u') :: units, ceiling, generation, installed', reused, evictions⟩ k = some u := by
  have hne : k' ≠ k := by
    rintro rfl
    rw [h] at hk'
    cases hk'
  unfold find?
  rw [List.find?_cons_of_neg (by simpa using hne)]
  exact h

/-- A unit stays where it is as long as the generation does. -/
theorem Exchange.find?_next (e : Exchange U) (h : e.before.find? k = some u)
    (hg : e.next.generation = e.before.generation) : e.next.find? k = some u := by
  rcases e.cases with ⟨-, -, hunits, -⟩ | ⟨-, -, -, k', u', hk', hnext⟩ | ⟨-, -, hnext⟩
  · unfold find?
    rw [hunits]
    exact h
  · rw [hnext]
    exact find?_cons hk' h
  · rw [hnext] at hg
    exact absurd hg (Nat.succ_ne_self _)

theorem Exchange.generation_next (e : Exchange U) :
    e.next.generation = e.before.generation + (if e.evicts then 1 else 0) := by
  rcases e.cases with ⟨-, he, -, hg, -⟩ | ⟨-, he, -, k, u, -, hnext⟩ | ⟨-, he, hnext⟩
  · rw [he, hg]
    rfl
  · rw [he, hnext]
    rfl
  · rw [he, hnext]
    rfl

theorem Exchange.installed_next (e : Exchange U) :
    e.next.installed = e.before.installed + (if e.installs then 1 else 0) := by
  rcases e.cases with ⟨hi, -, -, -, hn, -⟩ | ⟨hi, -, -, k, u, -, hnext⟩ | ⟨hi, -, hnext⟩
  · rw [hi, hn]
    rfl
  · rw [hi, hnext]
    rfl
  · rw [hi, hnext]
    rfl

/-- The registry counts evictions as it counts generations. -/
theorem Exchange.evictions_next (e : Exchange U) (h : e.before.evictions = e.before.generation) :
    e.next.evictions = e.next.generation := by
  rcases e.cases with ⟨-, -, -, hg, -, he⟩ | ⟨-, -, -, k, u, -, hnext⟩ | ⟨-, -, hnext⟩
  · rw [hg, he, h]
  · rw [hnext]
    exact h
  · rw [hnext]
    exact congrArg (· + 1) h

theorem Exchange.live_next (e : Exchange U) :
    e.next.live + e.dropped = e.before.live + (if e.installs then 1 else 0) := by
  rcases e.cases with ⟨hi, he, hunits, -⟩ | ⟨hi, he, -, k, u, -, hnext⟩ | ⟨hi, he, hnext⟩
  · simp [dropped, hi, he, live, hunits]
  · simp [dropped, hi, he, live, hnext]
  · simp [dropped, hi, he, live, hnext, evictAll]

/-- A unit that is handed out is the one found under its key, and its generation the current one. -/
theorem Exchange.find?_of_handed {e : Exchange U} (h : e.handed? = some (k, u, g)) :
    e.next.find? k = some u ∧ e.next.generation = g := by
  obtain ⟨r, q⟩ := e
  cases q with
  | evictAll => cases h
  | setCeiling n => cases h
  | lookup k' =>
    cases hk : r.find? k' with
    | none => simp [handed?, reply, respond, UnitRegistry.lookup, hk] at h
    | some found =>
      have hnext : next ⟨r, .lookup k'⟩ = { r with reused := r.reused + 1 } := by
        simp [next, respond, UnitRegistry.lookup, hk]
      simp only [handed?, reply, respond, UnitRegistry.lookup, hk, Option.some.injEq, Prod.mk.injEq] at h
      obtain ⟨rfl, rfl, rfl⟩ := h
      rw [hnext]
      exact ⟨hk, rfl⟩
  | register k' u' =>
    cases hk : r.find? k' with
    | some found =>
      have hnext : next ⟨r, .register k' u'⟩ = { r with reused := r.reused + 1 } := by
        simp [next, respond, UnitRegistry.register, hk]
      simp only [handed?, reply, respond, UnitRegistry.register, hk, Option.some.injEq, Prod.mk.injEq] at h
      obtain ⟨rfl, rfl, rfl⟩ := h
      rw [hnext]
      exact ⟨hk, rfl⟩
    | none =>
      by_cases hc : r.ceiling < r.live + 1
      · simp [handed?, reply, respond, UnitRegistry.register, hk, hc] at h
      · have hnext : next ⟨r, .register k' u'⟩ =
            { r with units := (k', u') :: r.units, installed := r.installed + 1 } := by
          simp [next, respond, UnitRegistry.register, hk, hc]
        simp only [handed?, reply, respond, UnitRegistry.register, hk, if_neg hc, Option.some.injEq,
          Prod.mk.injEq] at h
        obtain ⟨rfl, rfl, rfl⟩ := h
        rw [hnext]
        exact ⟨by simp [find?], rfl⟩

theorem Exchange.ceiling_next (e : Exchange U) : e.next.ceiling = e.request.ceiling?.getD e.before.ceiling := by
  obtain ⟨r, q⟩ := e
  cases q with
  | lookup k => cases hk : r.find? k <;> simp [next, respond, UnitRegistry.lookup, hk, Request.ceiling?]
  | evictAll => rfl
  | setCeiling n => rfl
  | register k u =>
    cases hk : r.find? k with
    | some found => simp [next, respond, UnitRegistry.register, hk, Request.ceiling?]
    | none =>
      by_cases hc : r.ceiling < r.live + 1
      · simp [next, respond, UnitRegistry.register, hk, hc, Request.ceiling?, evictAll]
      · simp [next, respond, UnitRegistry.register, hk, hc, Request.ceiling?]

/-- A registration that stores a unit keeps to the ceiling. -/
theorem Exchange.live_le_of_installs {e : Exchange U} (h : e.installs = true) : e.next.live ≤ e.before.ceiling := by
  rcases e.cases with ⟨hi, -⟩ | ⟨-, -, hle, k, u, -, hnext⟩ | ⟨hi, -⟩
  · simp [hi] at h
  · rw [hnext]
    exact hle
  · simp [hi] at h

theorem Exchange.live_of_evicts {e : Exchange U} (h : e.evicts = true) : e.next.live = 0 := by
  rcases e.cases with ⟨-, he, -⟩ | ⟨-, he, -⟩ | ⟨-, -, hnext⟩
  · simp [he] at h
  · simp [he] at h
  · rw [hnext]
    rfl

/-! ## A course of requests -/

variable {requests : List (Request U)}

theorem after_append (r : UnitRegistry U) (qs rest : List (Request U)) :
    r.after (qs ++ rest) = (r.after qs).after rest := by
  induction qs generalizing r with
  | nil => rfl
  | cons q qs ih => exact ih _

theorem length_log (r : UnitRegistry U) (requests : List (Request U)) : (r.log requests).length = requests.length := by
  induction requests generalizing r with
  | nil => rfl
  | cons q rest ih => simp [log, ih]

theorem generation_after (r : UnitRegistry U) (requests : List (Request U)) :
    (r.after requests).generation = r.generation + (r.log requests).countP Exchange.evicts := by
  induction requests generalizing r with
  | nil => rfl
  | cons q rest ih =>
    simp only [after, log, ih, Exchange.generation_next, List.countP_cons]
    omega

theorem evictions_after (h : r.evictions = r.generation) (requests : List (Request U)) :
    (r.after requests).evictions = (r.after requests).generation := by
  induction requests generalizing r with
  | nil => exact h
  | cons q rest ih => exact ih (Exchange.evictions_next ⟨r, q⟩ h)

theorem installed_after (r : UnitRegistry U) (requests : List (Request U)) :
    (r.after requests).installed = r.installed + (r.log requests).countP Exchange.installs := by
  induction requests generalizing r with
  | nil => rfl
  | cons q rest ih =>
    simp only [after, log, ih, Exchange.installed_next, List.countP_cons]
    omega

theorem live_after (r : UnitRegistry U) (requests : List (Request U)) :
    (r.after requests).live + Exchange.droppedIn (r.log requests) =
      r.live + (r.log requests).countP Exchange.installs := by
  induction requests generalizing r with
  | nil => rfl
  | cons q rest ih =>
    have hstep : (Exchange.next ⟨r, q⟩).live + Exchange.dropped ⟨r, q⟩ =
        r.live + (if Exchange.installs ⟨r, q⟩ then 1 else 0) := Exchange.live_next ⟨r, q⟩
    have hrest := ih (Exchange.next ⟨r, q⟩)
    simp only [after, log, Exchange.droppedIn, List.foldr_cons, List.countP_cons] at hrest ⊢
    omega

theorem ceiling_after (r : UnitRegistry U) (requests : List (Request U)) :
    (r.after requests).ceiling = inForce r.ceiling requests := by
  induction requests generalizing r with
  | nil => rfl
  | cons q rest ih =>
    simp only [after, ih, inForce, Exchange.ceiling_next]
    cases hq : q.ceiling? with
    | none => simp [hq]
    | some n =>
      rw [List.filterMap_cons_some hq]
      cases rest.filterMap Request.ceiling? <;> rfl

/-- The generation never decreases, and the units of a generation stay where they are while it lasts. -/
theorem find?_after (h : r.find? k = some u) (requests : List (Request U)) :
    r.generation ≤ (r.after requests).generation ∧
      ((r.after requests).generation = r.generation → (r.after requests).find? k = some u) := by
  have hmono : ∀ (r : UnitRegistry U) qs, r.generation ≤ (r.after qs).generation := fun r qs => by
    rw [generation_after]
    exact Nat.le_add_right _ _
  refine ⟨hmono r requests, ?_⟩
  induction requests generalizing r with
  | nil => exact fun _ => h
  | cons q rest ih =>
    intro hg
    -- Both the first request and the rest can only raise the generation, so neither does.
    have hfirst : r.generation ≤ (Exchange.next ⟨r, q⟩).generation := hmono r [q]
    have hrest : (Exchange.next ⟨r, q⟩).generation ≤ (r.after (q :: rest)).generation := hmono _ rest
    have hsame : (Exchange.next ⟨r, q⟩).generation = r.generation := by omega
    exact ih (Exchange.find?_next ⟨r, q⟩ h hsame) (hg.trans hsame.symm)

theorem toNat_word {count : Nat} (h : count < UInt64.size) : (word count).toNat = count := by
  rw [word, UInt64.toNat_ofNat', Nat.mod_eq_of_lt h]

/-- A word that counts something that happens at most once a request is exact, as long as there are fewer than
`2 ^ 64` requests. -/
theorem word_countP (r : UnitRegistry U) (p : Exchange U → Bool) (hlen : requests.length < UInt64.size) :
    (word ((r.log requests).countP p)).toNat = (r.log requests).countP p := by
  refine toNat_word (Nat.lt_of_le_of_lt List.countP_le_length ?_)
  rwa [length_log]

/-- In every course of fewer than `2 ^ 64` requests to a new registry,

* the word of the generation is the number of evictions, and so is the one that counts them;
* the word of the installed units is their number, and each of them is live or was dropped by an eviction;
* a unit that was handed out for a key is found under it as long as the generation is, as a word, the one it was
  handed out under, and once that is another it never is the same again;
* right behind a registration, no more units are live than the ceiling in force if the unit was stored, and none if
  all were dropped.

Units are any values, so that it is the very unit that was handed out which is found. -/
theorem units_accounted_and_vouched (ceiling : Nat) (hlen : requests.length < UInt64.size) :
    ((word ((new ceiling).after requests).generation).toNat = ((new ceiling).log requests).countP Exchange.evicts ∧
      word ((new ceiling).after requests).evictions = word ((new ceiling).after requests).generation) ∧
    ((word ((new ceiling).after requests).installed).toNat = ((new ceiling).log requests).countP Exchange.installs ∧
      ((new ceiling).log requests).countP Exchange.installs =
        ((new ceiling).after requests).live + Exchange.droppedIn ((new ceiling).log requests)) ∧
    ∀ before q later, requests = before ++ q :: later →
      (∀ k u g, Exchange.handed? ⟨(new ceiling).after before, q⟩ = some (k, u, g) → ∀ mid rest, later = mid ++ rest →
        (word ((new ceiling).after (before ++ q :: mid)).generation = word g →
          (((new ceiling).after (before ++ q :: mid)).lookup k).1 = some (u, g)) ∧
        (word ((new ceiling).after (before ++ q :: mid)).generation ≠ word g →
          word ((new ceiling).after requests).generation ≠ word g)) ∧
      (∀ k u u' g, q = .register k u → Exchange.reply ⟨(new ceiling).after before, q⟩ = .registered (.installed u' g) →
        ((new ceiling).after (before ++ [q])).live ≤ inForce ceiling before) ∧
      (∀ k u g, q = .register k u → Exchange.reply ⟨(new ceiling).after before, q⟩ = .registered (.evicted g) →
        ((new ceiling).after (before ++ [q])).live = 0) := by
  have hgeneration : ∀ qs : List (Request U),
      ((new ceiling).after qs).generation = ((new ceiling).log qs).countP Exchange.evicts := fun qs => by
    rw [generation_after]
    exact Nat.zero_add _
  have hinstalled : ((new ceiling).after requests).installed = ((new ceiling).log requests).countP Exchange.installs := by
    rw [installed_after]
    exact Nat.zero_add _
  refine ⟨⟨?_, ?_⟩, ⟨?_, ?_⟩, ?_⟩
  · rw [hgeneration, word_countP _ _ hlen]
  · rw [evictions_after rfl]
  · rw [hinstalled, word_countP _ _ hlen]
  · have hlive := live_after (new ceiling) requests
    have hnew : (new ceiling : UnitRegistry U).live = 0 := rfl
    omega
  rintro before q later rfl
  have hnext : ∀ rest, (new ceiling).after (before ++ q :: rest) =
      (Exchange.next ⟨(new ceiling).after before, q⟩).after rest := fun rest => after_append _ _ _
  refine ⟨?_, ?_, ?_⟩
  · rintro k u g hhanded mid rest rfl
    -- Until here and until the end the generation fits into a word, and so does the one that was handed out.
    have hsmall : ∀ qs : List (Request U), qs.length < UInt64.size → ((new ceiling).after qs).generation < UInt64.size := by
      intro qs hqs
      rw [hgeneration]
      refine Nat.lt_of_le_of_lt List.countP_le_length ?_
      rwa [length_log]
    have hmid : ((new ceiling).after (before ++ q :: mid)).generation < UInt64.size :=
      hsmall _ (by simp at hlen ⊢; omega)
    have hend : ((new ceiling).after (before ++ q :: (mid ++ rest))).generation < UInt64.size := hsmall _ hlen
    obtain ⟨hfound, rfl⟩ := Exchange.find?_of_handed hhanded
    obtain ⟨hle, hstays⟩ := find?_after hfound mid
    rw [← hnext] at hle hstays
    have hmore : ((new ceiling).after (before ++ q :: mid)).generation ≤
        ((new ceiling).after (before ++ q :: (mid ++ rest))).generation := by
      rw [← List.cons_append, ← List.append_assoc, after_append _ (before ++ q :: mid), generation_after _ rest]
      exact Nat.le_add_right _ _
    have hword : ∀ {a b : Nat}, a < UInt64.size → b < UInt64.size → (word a = word b ↔ a = b) := fun ha hb =>
      ⟨fun h => by rw [← toNat_word ha, h, toNat_word hb], fun h => h ▸ rfl⟩
    rw [Ne, Ne, hword hmid (by omega), hword hend (by omega)]
    refine ⟨fun hsame => ?_, by omega⟩
    simp only [lookup, hstays hsame, hsame]
  · rintro k u u' g rfl hreply
    have hceiling : ((new ceiling).after before).ceiling = inForce ceiling before := ceiling_after _ _
    rw [hnext, ← hceiling]
    exact Exchange.live_le_of_installs (by simp [Exchange.installs, hreply])
  · rintro k u g rfl hreply
    rw [hnext]
    exact Exchange.live_of_evicts (by simp [Exchange.evicts, hreply])

/-- Under a ceiling of two, then of none: the unit of `a` is found until the registration of `b` drops it, and the
generation it belonged to is over then. -/
theorem units_accounted_and_vouched_ceiling_lowered :
    let a : UnitKey := ⟨"a.x", "Map"⟩
    let b : UnitKey := ⟨"b.x", "Map"⟩
    let course : List (Request Nat) := [.register a 1, .lookup a, .setCeiling 0, .register b 2, .lookup a]
    course.length < UInt64.size ∧ (((new 2 : UnitRegistry Nat).after (course.take 3)).lookup a).1 = some (1, 0) ∧
      word ((new 2 : UnitRegistry Nat).after course).generation ≠ word 0 ∧
      ((new 2 : UnitRegistry Nat).after (course.take 4)).live = 0 := by
  intro a b course
  have hlen : course.length < UInt64.size := by decide
  have h := (units_accounted_and_vouched 2 hlen).2.2
  have handed : Exchange.handed? ⟨(new 2).after [], .register a 1⟩ = some (a, 1, 0) := by decide +kernel
  have hfirst := (h [] (.register a 1) _ rfl).1 a 1 0 handed
  have hevicted : Exchange.reply ⟨(new 2).after [.register a 1, .lookup a, .setCeiling 0], .register b 2⟩ =
      .registered (.evicted 1) := by rfl
  refine ⟨hlen, ?_, ?_, ?_⟩
  · exact (hfirst [.lookup a, .setCeiling 0] [.register b 2, .lookup a] rfl).1 (by decide +kernel)
  · exact (hfirst [.lookup a, .setCeiling 0, .register b 2] [.lookup a] rfl).2 (by decide +kernel)
  · exact (h [.register a 1, .lookup a, .setCeiling 0] (.register b 2) [.lookup a] rfl).2.2 b 2 1 rfl hevicted

end PathScript.UnitRegistry
