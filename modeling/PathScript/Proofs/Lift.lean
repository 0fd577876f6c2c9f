import PathScript.Machine

/-! # Lifted runs

Members work on the heap, names on the store, evaluation on the machine. A
computation over a part becomes one over the whole by `Run.zoom`, and its faults
are located by `Run.mapError`. Both commute with everything a `do` block is made
of, so that an equation between computations on the heap can be used inside
evaluation. -/

namespace PathScript

theorem exists_ok_of_any {ε α : Type} {x : Except ε α} {p : α → Bool} (h : x.toOption.any p = true) :
    ∃ a, x = .ok a ∧ p a = true := by
  cases x with
  | error e => cases h
  | ok a => exact ⟨a, rfl, h⟩

namespace Run

variable {σ τ ε δ α β : Type}

theorem get_bind (f : σ → Run σ ε α) (s : σ) : (get >>= f) s = f s s := rfl

theorem bind_eq_error {x : Run σ ε α} {k : α → Run σ ε β} {s t : σ} {e : ε} :
    (x >>= k) s = .error e t ↔ x s = .error e t ∨ ∃ a s', x s = .ok a s' ∧ k a s' = .error e t := by
  rw [bind_apply]
  cases x s with
  | ok a s' => exact ⟨fun h => .inr ⟨a, s', rfl, h⟩, fun h => by obtain h | ⟨_, _, ⟨⟩, h⟩ := h; cases h; exact h⟩
  | error e' s' => simp
  | diverged => simp

theorem query_eq_ok {f : σ → Option α} {s t : σ} {a : α} : (query f : Run σ ε α) s = .ok a t ↔ f s = some a ∧ t = s := by
  rw [query]
  cases f s with
  | none => simp
  | some b => simp [eq_comm]

theorem onError_apply (x : Run σ ε α) (g : σ → σ) (s : σ) : x.onError g s = match x s with
      | .ok a s' => .ok a s'
      | .error e s' => .error e (g s')
      | .diverged => .diverged := by
  rw [onError]
  cases x s <;> rfl

theorem mapError_bind (g : ε → δ) (x : Run σ ε α) (k : α → Run σ ε β) :
    mapError g (x >>= k) = mapError g x >>= fun a => mapError g (k a) := by
  funext s
  simp only [mapError, bind_apply]
  cases x s <;> rfl

theorem zoom_bind {split : τ → σ × (σ → τ)}
    (hput : ∀ t s, (split ((split t).2 s)).1 = s) (hput' : ∀ t s s', (split ((split t).2 s)).2 s' = (split t).2 s')
    (x : Run σ ε α) (k : α → Run σ ε β) : zoom split (x >>= k) = zoom split x >>= fun a => zoom split (k a) := by
  funext t
  simp only [zoom, bind_apply]
  cases hx : x (split t).1 with
  | ok a s =>
    simp only [hput, hput']
  | error e s => rfl
  | diverged => rfl

end Run

namespace Store

variable {α β : Type}

@[simp] theorem onHeap_pure (a : α) : onHeap (pure a) = (pure a : StoreM α) := by
  funext st
  cases st
  rfl

theorem onHeap_bind (x : HeapM α) (k : α → HeapM β) : onHeap (x >>= k) = onHeap x >>= fun a => onHeap (k a) :=
  Run.zoom_bind (fun t _ => by cases t; rfl) (fun t _ _ => by cases t; rfl) x k

theorem onHeap_apply (x : HeapM α) (st : Store) : onHeap x st = match x st.heap with
      | .ok a h => .ok a { st with heap := h }
      | .error e h => .error e { st with heap := h }
      | .diverged => .diverged := by
  obtain ⟨h, scopes, slots⟩ := st
  simp only [onHeap, Run.zoom, splitHeap]
  cases x h <;> rfl

theorem onHeap_eq_ok {x : HeapM α} {st st' : Store} {a : α} :
    onHeap x st = .ok a st' ↔ ∃ h, x st.heap = .ok a h ∧ st' = { st with heap := h } := by
  rw [onHeap_apply]
  cases x st.heap with
  | ok b h =>
    constructor
    · rintro ⟨⟩
      exact ⟨h, rfl, rfl⟩
    · rintro ⟨_, ⟨⟩, rfl⟩
      rfl
  | error e h => simp
  | diverged => simp

end Store

def Machine.withHeap (m : Machine) (h : Heap) : Machine := { m with store := { m.store with heap := h } }

namespace EvalM

variable {α β : Type} (locate : Fault → EvalError)

@[simp] theorem onStore_pure (a : α) : onStore locate (pure a) = (pure a : EvalM α) := by
  funext m
  cases m
  rfl

theorem onStore_bind (x : StoreM α) (k : α → StoreM β) :
    onStore locate (x >>= k) = onStore locate x >>= fun a => onStore locate (k a) := by
  unfold onStore
  rw [Run.mapError_bind]
  exact Run.zoom_bind (fun t _ => by cases t; rfl) (fun t _ _ => by cases t; rfl) _ _

@[simp] theorem onHeap_pure (a : α) : onHeap locate (pure a) = (pure a : EvalM α) := by
  unfold onHeap
  rw [Store.onHeap_pure, onStore_pure]

theorem onHeap_bind (x : HeapM α) (k : α → HeapM β) :
    onHeap locate (x >>= k) = onHeap locate x >>= fun a => onHeap locate (k a) := by
  unfold onHeap
  rw [Store.onHeap_bind, onStore_bind]

theorem onStore_get (k : Store → StoreM β) :
    onStore locate (Run.get >>= k) = Run.get >>= fun m => onStore locate (k m.store) := by
  rw [onStore_bind]
  funext m
  cases m
  rfl

theorem onStore_step (g : Store → α × Store) : onStore locate (Run.step g) = stepStore g := by
  funext m
  cases m
  rfl

theorem onStore_modify (g : Store → Store) : onStore locate (Run.modify g) = stepStore fun st => ((), g st) := by
  funext m
  cases m
  rfl

theorem onStore_apply (x : StoreM α) (m : Machine) : onStore locate x m = match x m.store with
      | .ok a st => .ok a { m with store := st }
      | .error e st => .error (locate e) { m with store := st }
      | .diverged => .diverged := by
  obtain ⟨st, accel, returned, events⟩ := m
  simp only [onStore, Run.zoom, Run.mapError, Machine.splitStore]
  cases x st <;> rfl

theorem onHeap_apply (x : HeapM α) (m : Machine) : onHeap locate x m = match x m.store.heap with
      | .ok a h => .ok a (m.withHeap h)
      | .error e h => .error (locate e) (m.withHeap h)
      | .diverged => .diverged := by
  obtain ⟨⟨h, scopes, slots⟩, accel, returned, events⟩ := m
  simp only [onHeap, onStore, Store.onHeap, Run.zoom, Run.mapError, Machine.splitStore, Store.splitHeap]
  cases x h <;> rfl

theorem onStore_eq_ok {locate : Fault → EvalError} {x : StoreM α} {m m' : Machine} {a : α} :
    onStore locate x m = .ok a m' ↔ ∃ st, x m.store = .ok a st ∧ m' = { m with store := st } := by
  rw [onStore_apply]
  cases x m.store with
  | ok b st =>
    constructor
    · rintro ⟨⟩
      exact ⟨st, rfl, rfl⟩
    · rintro ⟨_, ⟨⟩, rfl⟩
      rfl
  | error e st => simp
  | diverged => simp

theorem onHeap_eq_ok {locate : Fault → EvalError} {x : HeapM α} {m m' : Machine} {a : α} :
    onHeap locate x m = .ok a m' ↔ ∃ h, x m.store.heap = .ok a h ∧ m' = m.withHeap h := by
  rw [onHeap_apply]
  cases x m.store.heap with
  | ok b h =>
    constructor
    · rintro ⟨⟩
      exact ⟨h, rfl, rfl⟩
    · rintro ⟨_, ⟨⟩, rfl⟩
      rfl
  | error e h => simp
  | diverged => simp

theorem stepStore_apply (g : Store → α × Store) (m : Machine) :
    stepStore g m = .ok (g m.store).1 { m with store := (g m.store).2 } := by
  cases m
  rfl

theorem stepStore_stepStore (g : Store → α × Store) (h : α → Store → β × Store) :
    (stepStore g >>= fun a => stepStore (h a)) = stepStore fun st => h (g st).1 (g st).2 := by
  funext m
  rw [Run.bind_ok (stepStore_apply g m), stepStore_apply, stepStore_apply]

theorem stepAccel_apply (g : Accelerator → α × Accelerator) (m : Machine) :
    stepAccel g m = .ok (g m.accel).1 { m with accel := (g m.accel).2 } := by
  cases m
  rfl

end EvalM

end PathScript
