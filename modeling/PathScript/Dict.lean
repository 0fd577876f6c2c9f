
/-! # Dictionaries

A dictionary maps texts to values and lists its entries in the order in which
their keys were first inserted. Writing to a key that is present keeps its
place; erasing a key closes the gap, and a later insertion of the same key goes
to the end. That keys are distinct is part of the type. -/

namespace PathScript

namespace Entries

variable {α : Type}

def find? (k : String) : List (String × α) → Option α
  | [] => none
  | (k', v) :: rest => if k' = k then some v else find? k rest

/-- Writes beside a key, at its place or at the end. -/
def put (k : String) (v : α) : List (String × α) → List (String × α)
  | [] => [(k, v)]
  | (k', v') :: rest => if k' = k then (k, v) :: rest else (k', v') :: put k v rest

def erase (k : String) : List (String × α) → List (String × α)
  | [] => []
  | (k', v) :: rest => if k' = k then rest else (k', v) :: erase k rest

def keys (es : List (String × α)) : List String := es.map (·.1)

theorem keys_put (k : String) (v : α) (es : List (String × α)) :
    keys (put k v es) = if k ∈ keys es then keys es else keys es ++ [k] := by
  induction es with
  | nil => simp [put, keys]
  | cons e rest ih =>
    obtain ⟨k', v'⟩ := e
    by_cases h : k' = k
    · simp [put, keys, h]
    · have h' : ¬ k = k' := fun e => h e.symm
      simp only [put, if_neg h, keys, List.map_cons, List.mem_cons, h', false_or] at ih ⊢
      rw [ih]
      by_cases hm : k ∈ List.map (·.1) rest <;> simp [hm]

theorem nodup_put {es : List (String × α)} (h : (keys es).Nodup) (k : String) (v : α) : (keys (put k v es)).Nodup := by
  rw [keys_put]
  split
  · exact h
  · next hm =>
    rw [List.nodup_append]
    exact ⟨h, by simp, fun a ha b hb => by
      rw [List.mem_singleton] at hb
      subst hb
      exact fun e => hm (e ▸ ha)⟩

theorem keys_erase (k : String) (es : List (String × α)) : keys (erase k es) = (keys es).erase k := by
  induction es with
  | nil => rfl
  | cons e rest ih =>
    obtain ⟨k', v⟩ := e
    by_cases h : k' = k
    · simp [erase, keys, h]
    · simp only [erase, if_neg h, keys, List.map_cons] at ih ⊢
      rw [List.erase_cons_tail (by simpa using h), ih]

theorem nodup_erase {es : List (String × α)} (h : (keys es).Nodup) (k : String) : (keys (erase k es)).Nodup := by
  rw [keys_erase]
  exact h.erase k

theorem find?_put (k : String) (v : α) (es : List (String × α)) (j : String) :
    find? j (put k v es) = if k = j then some v else find? j es := by
  induction es with
  | nil => simp [put, find?]
  | cons e rest ih =>
    obtain ⟨k', v'⟩ := e
    by_cases h : k' = k
    · subst h
      by_cases hj : k' = j <;> simp [put, find?, hj]
    · by_cases hj : k' = j
      · subst hj
        simp [put, find?, h, Ne.symm h]
      · simp [put, find?, h, hj, ih]

theorem find?_eq_none_iff (k : String) (es : List (String × α)) : find? k es = none ↔ k ∉ keys es := by
  induction es with
  | nil => simp [find?, keys]
  | cons e rest ih =>
    obtain ⟨k', v⟩ := e
    by_cases h : k' = k
    · simp [find?, keys, h]
    · have h' : ¬ k = k' := fun e => h e.symm
      simp only [keys] at ih
      simp [find?, keys, h, h', ih]

theorem mem_of_find? {k : String} {v : α} {es : List (String × α)} (h : find? k es = some v) : (k, v) ∈ es := by
  induction es with
  | nil => simp [find?] at h
  | cons e rest ih =>
      by_cases hk : e.1 = k
      · simp only [find?, if_pos hk, Option.some.injEq] at h
        exact List.mem_cons.mpr (.inl (by rw [← hk, ← h]))
      · simp only [find?, if_neg hk] at h
        exact List.mem_cons_of_mem _ (ih h)

theorem mem_put {k : String} {v : α} {es : List (String × α)} {e : String × α}
    (h : e ∈ put k v es) : e = (k, v) ∨ e ∈ es := by
  induction es with
  | nil => simpa [put] using h
  | cons e' rest ih =>
    by_cases hk : e'.1 = k
    · simp only [put, if_pos hk, List.mem_cons] at h ⊢
      exact h.imp_right .inr
    · simp only [put, if_neg hk, List.mem_cons] at h ⊢
      rcases h with h | h
      · exact .inr (.inl h)
      · exact (ih h).imp_right .inr

theorem put_of_notMem {k : String} {es : List (String × α)} (h : k ∉ keys es) (v : α) : put k v es = es ++ [(k, v)] := by
  induction es with
  | nil => rfl
  | cons e rest ih =>
    obtain ⟨hne, hrest⟩ := not_or.mp (mt List.mem_cons.mpr h)
    rw [put, if_neg (Ne.symm hne), ih hrest, List.cons_append]

theorem find?_erase {es : List (String × α)} (hn : (keys es).Nodup) (k j : String) :
    find? j (erase k es) = if k = j then none else find? j es := by
  induction es with
  | nil => simp [erase, find?]
  | cons e rest ih =>
    obtain ⟨k', v⟩ := e
    simp only [keys, List.map_cons, List.nodup_cons] at hn
    have ih := ih hn.2
    by_cases h : k' = k
    · subst h
      by_cases hj : k' = j
      · subst hj
        simpa [erase] using (find?_eq_none_iff k' rest).2 hn.1
      · simp [erase, find?, hj]
    · by_cases hj : k' = j
      · subst hj
        simp [erase, find?, h, Ne.symm h]
      · simp [erase, find?, h, hj, ih]

end Entries

structure Dict (α : Type) where
  entries : List (String × α)
  distinct : (Entries.keys entries).Nodup

namespace Dict

variable {α β : Type}

def empty : Dict α := ⟨[], by simp [Entries.keys]⟩

instance : Inhabited (Dict α) := ⟨empty⟩

def get? (d : Dict α) (k : String) : Option α := Entries.find? k d.entries

def contains (d : Dict α) (k : String) : Bool := (d.get? k).isSome

def insert (d : Dict α) (k : String) (v : α) : Dict α :=
  ⟨Entries.put k v d.entries, Entries.nodup_put d.distinct k v⟩

def erase (d : Dict α) (k : String) : Dict α :=
  ⟨Entries.erase k d.entries, Entries.nodup_erase d.distinct k⟩

def keys (d : Dict α) : List String := Entries.keys d.entries

def values (d : Dict α) : List α := d.entries.map (·.2)

def size (d : Dict α) : Nat := d.entries.length

def isEmpty (d : Dict α) : Bool := d.entries.isEmpty

def ofList (es : List (String × α)) : Dict α :=
  es.foldl (fun d e => d.insert e.1 e.2) empty

@[simp] theorem get?_insert (d : Dict α) (k : String) (v : α) (j : String) :
    (d.insert k v).get? j = if k = j then some v else d.get? j :=
  Entries.find?_put k v d.entries j

@[simp] theorem get?_erase (d : Dict α) (k j : String) :
    (d.erase k).get? j = if k = j then none else d.get? j :=
  Entries.find?_erase d.distinct k j

theorem get?_of_mem {d : Dict α} {e : String × α} (he : e ∈ d.entries) : d.get? e.1 = some e.2 := by
  obtain ⟨es, hnodup⟩ := d
  change Entries.find? e.1 es = some e.2
  change e ∈ es at he
  induction es with
  | nil => cases he
  | cons e' es ih =>
    obtain ⟨hnew, hnodup⟩ := List.nodup_cons.mp hnodup
    obtain rfl | he := List.mem_cons.mp he
    · exact if_pos rfl
    · have hne : e'.1 ≠ e.1 := fun heq => hnew (List.mem_map.mpr ⟨e, he, heq.symm⟩)
      exact (if_neg hne).trans (ih hnodup he)

/-- A write appends a new key and keeps the place of a known one. -/
theorem keys_insert (d : Dict α) (k : String) (v : α) :
    (d.insert k v).keys = if k ∈ d.keys then d.keys else d.keys ++ [k] :=
  Entries.keys_put k v d.entries

/-- The entries of a dictionary make it again. -/
theorem ofList_entries (d : Dict α) : ofList d.entries = d := by
  -- What has been inserted is in front of what is left, so every key is new.
  have hfold : ∀ (es : List (String × α)) (d : Dict α), (Entries.keys (d.entries ++ es)).Nodup →
      (es.foldl (fun d e => d.insert e.1 e.2) d).entries = d.entries ++ es := by
    intro es
    induction es with
    | nil => simp
    | cons e rest ih =>
      intro d hnodup
      have hnew : e.1 ∉ Entries.keys d.entries := by
        intro hmem
        rw [Entries.keys, List.map_append, List.nodup_append] at hnodup
        exact hnodup.2.2 _ hmem _ List.mem_cons_self rfl
      have hentries : (d.insert e.1 e.2).entries = d.entries ++ [e] := Entries.put_of_notMem hnew e.2
      rw [List.append_cons, ← hentries] at hnodup
      rw [List.foldl_cons, ih _ hnodup, hentries, List.append_assoc, List.singleton_append]
  have hentries : (ofList d.entries).entries = d.entries := hfold d.entries empty d.distinct
  cases h : ofList d.entries
  rw [h] at hentries
  cases hentries
  rfl

theorem keys_erase (d : Dict α) (k : String) : (d.erase k).keys = d.keys.erase k :=
  Entries.keys_erase k d.entries

theorem nodup_keys (d : Dict α) : d.keys.Nodup := d.distinct

theorem contains_iff (d : Dict α) (k : String) : d.contains k = true ↔ k ∈ d.keys := by
  have h := Entries.find?_eq_none_iff k d.entries
  simp only [contains, get?, keys]
  cases hf : Entries.find? k d.entries with
  | none => simpa using h.1 hf
  | some v =>
    simp only [Option.isSome_some, true_iff]
    rw [hf] at h
    exact Classical.byContradiction fun hm => by simpa using h.2 hm

end Dict

end PathScript
