
/-! # Runs

Everything that executes in this library is a `Run`: a function of the state
that ends with a value, with a fault, or not at all. The state survives a
fault, because a failing program keeps the effects it had before the failure.
`diverged` is kept apart from `error`: it stands for a computation that the
given fuel does not finish, or that has no end, and no program can observe it. -/

namespace PathScript

inductive Outcome (σ ε α : Type) where
  | ok (value : α) (state : σ)
  | error (fault : ε) (state : σ)
  /-- No answer within the fuel, or none at all. -/
  | diverged
deriving Inhabited

def Run (σ ε α : Type) : Type := σ → Outcome σ ε α

namespace Run

variable {σ τ ε δ α β : Type}

instance : Inhabited (Run σ ε α) := ⟨fun _ => .diverged⟩

@[always_inline, inline]
protected def pure (a : α) : Run σ ε α := fun s => .ok a s

@[always_inline, inline]
protected def bind (x : Run σ ε α) (f : α → Run σ ε β) : Run σ ε β := fun s =>
  match x s with
  | .ok a s' => f a s'
  | .error e s' => .error e s'
  | .diverged => .diverged

instance : Monad (Run σ ε) where
  pure := Run.pure
  bind := Run.bind

@[always_inline, inline]
def fail (e : ε) : Run σ ε α := fun s => .error e s

@[always_inline, inline]
def never : Run σ ε α := fun _ => .diverged

@[always_inline, inline]
def get : Run σ ε σ := fun s => .ok s s

@[always_inline, inline]
def modify (f : σ → σ) : Run σ ε Unit := fun s => .ok () (f s)

/-- Runs a step that computes a value together with the next state. -/
@[always_inline, inline]
def step (f : σ → α × σ) : Run σ ε α := fun s =>
  match f s with
  | (a, s') => .ok a s'

/-- A result that is already known. -/
@[always_inline, inline]
def ofExcept : Except ε α → Run σ ε α
  | .ok a => Run.pure a
  | .error e => fail e

/-- A reading of the state that may have no answer. -/
@[always_inline, inline]
def query (f : σ → Option α) : Run σ ε α := fun s =>
  match f s with
  | some a => .ok a s
  | none => .diverged

@[always_inline, inline]
def mapError (f : ε → δ) (x : Run σ ε α) : Run σ δ α := fun s =>
  match x s with
  | .ok a s' => .ok a s'
  | .error e s' => .error (f e) s'
  | .diverged => .diverged

/-- Applies `f` to the state if `x` ends with a fault. -/
@[always_inline, inline]
def onError (x : Run σ ε α) (f : σ → σ) : Run σ ε α := fun s =>
  match x s with
  | .error e s' => .error e (f s')
  | o => o

/-- Runs a computation over a part of the state. `split` takes the whole apart into the part and a way to put another
in its place; nothing else holds the part while it runs, so that it can be written in place. -/
@[always_inline, inline]
def zoom (split : τ → σ × (σ → τ)) (x : Run σ ε α) : Run τ ε α := fun t =>
  match split t with
  | (s, put) =>
    match x s with
    | .ok a s => .ok a (put s)
    | .error e s => .error e (put s)
    | .diverged => .diverged

/-! ## Laws -/

@[simp] theorem pure_apply (a : α) (s : σ) : (pure a : Run σ ε α) s = .ok a s := rfl

@[simp] theorem fail_apply (e : ε) (s : σ) : (fail e : Run σ ε α) s = .error e s := rfl

@[simp] theorem get_apply (s : σ) : (get : Run σ ε σ) s = .ok s s := rfl

@[simp] theorem modify_apply (f : σ → σ) (s : σ) : (modify f : Run σ ε Unit) s = .ok () (f s) := rfl

theorem bind_apply (x : Run σ ε α) (f : α → Run σ ε β) (s : σ) : (x >>= f) s = match x s with
      | .ok a s' => f a s'
      | .error e s' => .error e s'
      | .diverged => .diverged := rfl

theorem bind_ok {x : Run σ ε α} {s s' : σ} {a : α} (h : x s = .ok a s') (f : α → Run σ ε β) : (x >>= f) s = f a s' := by
  simp [bind_apply, h]

theorem bind_error {x : Run σ ε α} {s s' : σ} {e : ε} (h : x s = .error e s')
    (f : α → Run σ ε β) : (x >>= f) s = .error e s' := by
  simp [bind_apply, h]

/-- A sequence answers exactly when both of its parts do. -/
theorem bind_eq_ok {x : Run σ ε α} {f : α → Run σ ε β} {s t : σ} {b : β} :
    (x >>= f) s = .ok b t ↔ ∃ a s', x s = .ok a s' ∧ f a s' = .ok b t := by
  rw [bind_apply]
  cases x s with
  | ok a s' => exact ⟨fun h => ⟨a, s', rfl, h⟩, fun ⟨_, _, h, hf⟩ => by cases h; exact hf⟩
  | error e s' => simp
  | diverged => simp

theorem ofExcept_eq_ok {x : Except ε α} {s t : σ} {a : α} :
    (ofExcept x : Run σ ε α) s = .ok a t ↔ x = .ok a ∧ t = s := by
  cases x <;> simp [ofExcept, Run.pure, eq_comm]

instance : LawfulMonad (Run σ ε) := LawfulMonad.mk' _
  (fun x => by
    funext s
    show Run.bind x Run.pure s = x s
    unfold Run.bind
    cases x s <;> rfl)
  (fun _ _ => rfl)
  (fun x f g => by
    funext s
    show Run.bind (Run.bind x f) g s = Run.bind x (fun a => Run.bind (f a) g) s
    unfold Run.bind
    cases x s <;> rfl)

end Run

end PathScript
