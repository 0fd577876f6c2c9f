import Mathlib.Logic.Relation
import PathScript.Ast
import PathScript.Proofs.Conversion

/-! # Places

A container holds values at places: a list and an array at positions, a map under
keys, an object in fields. A step of a path that looks at the heap alone, a
property or an index that is a literal, stands for a place of its receiver. A
write changes what one place holds. If no container reaches itself, then the
places on the way to a container are none of its own, and a write to it leaves
the way as it was. -/

namespace PathScript

/-! ## Tables -/

theorem Table.getD_update {α : Type} (t : Table α) (i j : Nat) {d : α} {f : α → α} (hf : f d = d) :
    ((t.update i f).get? j).getD d = if i = j then f ((t.get? j).getD d) else (t.get? j).getD d := by
  rw [get?_update]
  split
  · cases t.get? j with
    | none => exact hf.symm
    | some a => rfl
  · rfl

theorem Table.getD_eq {α : Type} {t t' : Table α} {i : Nat} {d : α} (h : ∀ {j a}, t.get? j = some a → t'.get? j = some a)
    (hi : t.get? i ≠ none) : (t'.get? i).getD d = (t.get? i).getD d := by
  obtain ⟨a, ha⟩ := Option.ne_none_iff_exists'.mp hi
  rw [h ha, ha]

/-! ## Containers and their places -/

/-- A container, by its cell. -/
inductive Ref where
  | list (addr : Nat)
  | array (addr : Nat)
  | map (addr : Nat)
  | object (addr : Nat)
deriving DecidableEq

/-- The container that a value is. -/
def Value.ref? : Value → Option Ref
  | list a => some (.list a)
  | array a => some (.array a)
  | map a => some (.map a)
  | object _ a => some (.object a)
  | _ => none

/-- A place in a container. -/
inductive Place where
  | item (addr index : Nat)
  | element (addr index : Nat)
  | entry (addr : Nat) (key : String)
  | field (addr index : Nat)
deriving DecidableEq

def Place.ref : Place → Ref
  | item a _ => .list a
  | element a _ => .array a
  | entry a _ => .map a
  | field a _ => .object a

namespace Heap

variable {h h' : Heap} {p q : Place} {v w : Value}

/-- What a place holds. A map that has no entry for a key holds `null` there. -/
def at? (h : Heap) : Place → Option Value
  | .item a i => (h.list a)[i]?
  | .element a i => (h.array a)[i]?
  | .entry a key => (h.maps.get? a).map fun entries => (entries.get? key).getD .null
  | .field a i => ((h.object a)[i]?).map (·.2)

def put (h : Heap) (v : Value) : Place → Heap
  | .item a i => h.modifyList a (·.setIfInBounds i v)
  | .element a i => h.modifyArray a (·.setIfInBounds i v)
  | .entry a key => h.modifyMap a (·.insert key v)
  | .field a i => h.setFieldAt a i v

theorem list_modifyList (h : Heap) (a b : Nat) (f : Array Value → Array Value) (hf : f #[] = #[]) :
    (h.modifyList a f).list b = if a = b then f (h.list b) else h.list b := Table.getD_update _ a b hf

theorem array_modifyArray (h : Heap) (a b : Nat) (f : Array Value → Array Value) (hf : f #[] = #[]) :
    (h.modifyArray a f).array b = if a = b then f (h.array b) else h.array b := Table.getD_update _ a b hf

theorem object_setFieldAt (h : Heap) (a b i : Nat) (v : Value) :
    (h.setFieldAt a i v).object b = if a = b then (h.object b).modify i fun f => (f.1, v) else h.object b :=
  Table.getD_update _ a b (by simp)

/-- A place that was written holds what was written. -/
theorem at?_put (hp : (h.at? p).isSome = true) (v : Value) : (h.put v p).at? p = some v := by
  cases p with
  | item a i =>
    have hi : i < (h.list a).size := by simpa [at?] using hp
    rw [put, at?, list_modifyList _ _ _ _ (by simp), if_pos rfl, Array.getElem?_setIfInBounds_self_of_lt hi]
  | element a i =>
    have hi : i < (h.array a).size := by simpa [at?] using hp
    rw [put, at?, array_modifyArray _ _ _ _ (by simp), if_pos rfl, Array.getElem?_setIfInBounds_self_of_lt hi]
  | entry a key =>
    obtain ⟨entries, hentries⟩ : ∃ entries, h.maps.get? a = some entries := by simpa [at?, Option.isSome_iff_exists] using hp
    simp [put, at?, modifyMap, Table.get?_update, hentries]
  | field a i =>
    have hi : i < (h.object a).length := by simpa [at?] using hp
    simp [put, at?, object_setFieldAt, hi]

/-- A write leaves all other places as they were. -/
theorem at?_put_of_ne (hne : p ≠ q) (v : Value) : (h.put v p).at? q = h.at? q := by
  cases p with
  | item a i =>
    cases q with
    | item b j =>
      rw [put, at?, list_modifyList _ _ _ _ (by simp), at?]
      split
      next hab => exact Array.getElem?_setIfInBounds_ne fun hij => hne (by rw [hab, hij])
      next => rfl
    | _ => rfl
  | element a i =>
    cases q with
    | element b j =>
      rw [put, at?, array_modifyArray _ _ _ _ (by simp), at?]
      split
      next hab => exact Array.getElem?_setIfInBounds_ne fun hij => hne (by rw [hab, hij])
      next => rfl
    | _ => rfl
  | entry a key =>
    cases q with
    | entry b key' =>
      rw [put, at?, at?, modifyMap, Table.get?_update]
      split
      next hab =>
        rw [Option.map_map]
        refine congrArg (Option.map · _) (funext fun entries => ?_)
        rw [Function.comp_apply, Dict.get?_insert, if_neg fun hkey => hne (by rw [hab, hkey])]
      next => rfl
    | _ => rfl
  | field a i =>
    cases q with
    | field b j =>
      rw [put, at?, object_setFieldAt, at?]
      split
      next hab => rw [List.getElem?_modify_ne _ _ fun hij => hne (by rw [hab, hij])]
      next => rfl
    | _ => rfl

theorem maps_put_of_ne {a : Nat} (hne : p.ref ≠ .map a) (v : Value) : (h.put v p).maps.get? a = h.maps.get? a := by
  cases p with
  | entry b key =>
    have hab : b ≠ a := fun heq => hne (heq ▸ rfl)
    rw [put, modifyMap, Table.get?_update, if_neg hab]
  | _ => rfl

theorem size_list_put (h : Heap) (v : Value) (p : Place) (a : Nat) : ((h.put v p).list a).size = (h.list a).size := by
  cases p with
  | item b i =>
    rw [put, list_modifyList _ _ _ _ (by simp)]
    split
    · rw [Array.size_setIfInBounds]
    · rfl
  | _ => rfl

theorem size_array_put (h : Heap) (v : Value) (p : Place) (a : Nat) : ((h.put v p).array a).size = (h.array a).size := by
  cases p with
  | element b i =>
    rw [put, array_modifyArray _ _ _ _ (by simp)]
    split
    · rw [Array.size_setIfInBounds]
    · rfl
  | _ => rfl

/-! ## Heaps that only grow -/

/-- Every cell is still there and holds what it held. -/
structure Extends (h h' : Heap) : Prop where
  lists : ∀ {a cell}, h.lists.get? a = some cell → h'.lists.get? a = some cell
  arrays : ∀ {a cell}, h.arrays.get? a = some cell → h'.arrays.get? a = some cell
  maps : ∀ {a cell}, h.maps.get? a = some cell → h'.maps.get? a = some cell
  objects : ∀ {a cell}, h.objects.get? a = some cell → h'.objects.get? a = some cell

end Heap

theorem Table.get?_alloc_of_some {α : Type} {t : Table α} {i : Nat} {a : α} (h : t.get? i = some a) (b : α) :
    (t.alloc b).2.get? i = some a := by
  rw [get?_alloc, if_neg, h]
  rintro rfl
  exact absurd (Array.getElem?_eq_some_iff.mp h).1 (Nat.lt_irrefl _)

namespace Heap.Extends

variable {h h' : Heap} {p : Place} {v : Value}

theorem refl (h : Heap) : h.Extends h := ⟨id, id, id, id⟩

theorem newList (h : Heap) (items : Array Value) : h.Extends (h.newList items).2 :=
  ⟨fun hget => Table.get?_alloc_of_some hget _, id, id, id⟩

theorem newArray (h : Heap) (items : Array Value) : h.Extends (h.newArray items).2 :=
  ⟨id, fun hget => Table.get?_alloc_of_some hget _, id, id⟩

theorem list_eq (hext : h.Extends h') {a i : Nat} (hi : i < (h.list a).size) : h'.list a = h.list a :=
  Table.getD_eq hext.lists fun hnone => by simp [Heap.list, hnone] at hi

theorem array_eq (hext : h.Extends h') {a i : Nat} (hi : i < (h.array a).size) : h'.array a = h.array a :=
  Table.getD_eq hext.arrays fun hnone => by simp [Heap.array, hnone] at hi

theorem object_eq (hext : h.Extends h') {a i : Nat} (hi : i < (h.object a).length) : h'.object a = h.object a :=
  Table.getD_eq hext.objects fun hnone => by simp [Heap.object, hnone] at hi

theorem at?_eq (hext : h.Extends h') (hp : h.at? p = some v) : h'.at? p = some v := by
  cases p with
  | item a i => rw [at?, hext.list_eq (Array.getElem?_eq_some_iff.mp hp).1]; exact hp
  | element a i => rw [at?, hext.array_eq (Array.getElem?_eq_some_iff.mp hp).1]; exact hp
  | entry a key =>
    obtain ⟨entries, hentries, hv⟩ := Option.map_eq_some_iff.mp hp
    rw [at?, hext.maps hentries, Option.map_some, hv]
  | field a i =>
    obtain ⟨f, hf, -⟩ := Option.map_eq_some_iff.mp hp
    rw [at?, hext.object_eq (List.getElem?_eq_some_iff.mp hf).1]
    exact hp

theorem isSome_at? (hext : h.Extends h') (hp : (h.at? p).isSome = true) : (h'.at? p).isSome = true := by
  obtain ⟨v, hv⟩ := Option.isSome_iff_exists.mp hp
  rw [hext.at?_eq hv]
  rfl

end Heap.Extends

/-- A converter that makes new containers at most. -/
def Converter.Keeps (c : Converter) : Prop :=
  ∀ {v ty h w h'}, c.convert v ty h = .ok w h' → h.Extends h'

/-- The built-in rules make new containers at most, and so do they under converters of the host that do. -/
theorem ConversionRegistry.keeps {r : ConversionRegistry} (hr : ∀ e ∈ r.custom, e.2.Keeps) : r.converter.Keeps := by
  intro v ty h w h' hw
  obtain ⟨e, he, heq⟩ | heq := r.convert_cases v ty
  · exact hr e he (heq ▸ hw)
  · cases Convert.gives_of_convert (heq ▸ hw) with
    | any | null | simple => exact .refl h
    | list => exact .newList h _
    | array => exact .newArray h _

/-! ## Steps of paths -/

/-- Whether a step on `null` gives `null`. -/
def Segment.isSafe : Segment → Bool
  | property _ safe => safe
  | index _ safe => safe
  | _ => false

section Steps

variable (classes : ClassTable) (h : Heap)

/-- The place of a value that an index selects. -/
def Value.indexed? (receiver index : Value) : Option Place :=
  match receiver with
  | .list a => (Member.positionOf index (h.list a).size).toOption.map (.item a)
  | .array a => (Member.positionOf index (h.array a).size).toOption.map (.element a)
  | .map a => (index.key h).map (.entry a)
  | _ => none

/-- The place of a receiver that a step stands for. -/
def Segment.place? (receiver : Value) : Segment → Option Place
  | property name _ =>
    match receiver with
    | .map a => some (.entry a name)
    | .object c a => ((classes.definition c).fieldIndex? name).map (.field a)
    | _ => none
  | index n _ => n.literal?.bind (receiver.indexed? h)
  | _ => none

/-- Where a step leads from a receiver. -/
def Segment.lead? (receiver : Value) (s : Segment) : Option Value :=
  if receiver.isNull then (if s.isSafe then some .null else none) else (s.place? classes h receiver).bind h.at?

/-- Where steps lead from a receiver. -/
def Segment.leadAlong? : Value → List Segment → Option Value
  | v, [] => some v
  | v, s :: rest => (s.lead? classes h v).bind (leadAlong? · rest)

/-- Whether a step meets `null` or a container that has a place for it. -/
def Segment.meets (receiver : Value) : Segment → Bool
  | property name _ =>
    match receiver with
    | .null => true
    | .map a => (h.maps.get? a).isSome
    | .object c a => ((classes.definition c).fieldIndex? name).any (· < (h.object a).length)
    | _ => false
  | index _ _ =>
    match receiver with
    | .null | .list _ | .array _ => true
    | .map a => (h.maps.get? a).isSome
    | _ => false
  | _ => false

/-- Whether steps from a receiver meet such containers as far as they lead. -/
def Segment.meetAlong : Value → List Segment → Bool
  | _, [] => true
  | v, s :: rest => s.meets classes h v && ((s.lead? classes h v).map (meetAlong · rest)).getD true

end Steps

/-- A property, or an index that is a literal with a text of its own. -/
def Segment.Constant : Segment → Prop
  | property _ _ => True
  | index n _ => ∃ v key, n.literal? = some v ∧ ∀ h : Heap, v.key h = some key
  | _ => False

namespace Segment

variable {classes : ClassTable} {h h' : Heap} {receiver u v w : Value} {s : Segment} {steps : List Segment} {p : Place}

theorem ref?_of_place? (hp : s.place? classes h receiver = some p) : receiver.ref? = some p.ref := by
  cases s with
  | property name safe =>
    cases receiver with
    | map a => cases hp; rfl
    | object c a =>
      obtain ⟨i, -, rfl⟩ := Option.map_eq_some_iff.mp hp
      rfl
    | _ => cases hp
  | index n safe =>
    obtain ⟨index, -, hp⟩ := Option.bind_eq_some_iff.mp hp
    cases receiver with
    | list a | array a | map a =>
      obtain ⟨i, -, rfl⟩ := Option.map_eq_some_iff.mp hp
      rfl
    | _ => cases hp
  | _ => cases hp

theorem place?_put (hs : s.Constant) (x : Value) (q : Place) (receiver : Value) :
    s.place? classes (h.put x q) receiver = s.place? classes h receiver := by
  cases s with
  | index n safe =>
    obtain ⟨index, key, hliteral, hkey⟩ := hs
    simp only [place?, hliteral, Option.bind_some]
    cases receiver with
    | list a => simp only [Value.indexed?, Heap.size_list_put]
    | array a => simp only [Value.indexed?, Heap.size_array_put]
    | map a => simp only [Value.indexed?, hkey]
    | _ => rfl
  | _ => rfl

theorem eq_ok_of_toOption {ε α : Type} {x : Except ε α} {a : α} (h : x.toOption = some a) : x = .ok a := by
  cases x with
  | error e => cases h
  | ok b => cases h; rfl

theorem lt_of_positionOf {index : Value} {length i : Nat} (h : Member.positionOf index length = .ok i) : i < length := by
  unfold Member.positionOf at h
  cases hn : Member.indexNumber index with
  | error e => rw [hn] at h; cases h
  | ok n =>
    rw [hn] at h
    change Member.position n length = .ok i at h
    unfold Member.position at h
    split at h
    next hlt =>
      cases h
      simp at hlt
      omega
    next => cases h

theorem place?_of_extends (hs : s.Constant) (hext : h.Extends h') (hp : s.place? classes h receiver = some p) :
    s.place? classes h' receiver = some p := by
  cases s with
  | index n safe =>
    obtain ⟨index, key, hliteral, hkey⟩ := hs
    simp only [place?, hliteral, Option.bind_some] at hp ⊢
    cases receiver with
    | list a =>
      obtain ⟨i, hi, rfl⟩ := Option.map_eq_some_iff.mp hp
      have hlt := lt_of_positionOf (eq_ok_of_toOption hi)
      rw [Value.indexed?, hext.list_eq hlt, hi, Option.map_some]
    | array a =>
      obtain ⟨i, hi, rfl⟩ := Option.map_eq_some_iff.mp hp
      have hlt := lt_of_positionOf (eq_ok_of_toOption hi)
      rw [Value.indexed?, hext.array_eq hlt, hi, Option.map_some]
    | map a => simpa only [Value.indexed?, hkey] using hp
    | _ => cases hp
  | _ => exact hp

theorem lead?_null : s.lead? classes h .null = if s.isSafe then some .null else none := rfl

theorem lead?_of_ne_null (hv : receiver ≠ .null) :
    s.lead? classes h receiver = (s.place? classes h receiver).bind h.at? := by
  unfold lead?
  cases receiver with
  | null => exact absurd rfl hv
  | _ => rfl

theorem eq_null_of_isNull (hv : v.isNull = true) : v = .null := by
  cases v with
  | null => rfl
  | _ => cases hv

/-- Where a step leads: from `null` to `null`, else to what a place holds. -/
theorem lead?_cases (hl : s.lead? classes h receiver = some u) :
    (receiver = .null ∧ s.isSafe = true ∧ u = .null) ∨ ∃ p, s.place? classes h receiver = some p ∧ h.at? p = some u := by
  unfold lead? at hl
  split at hl
  next hnull =>
    split at hl
    next hsafe =>
      cases hl
      exact .inl ⟨eq_null_of_isNull hnull, hsafe, rfl⟩
    next => cases hl
  next => exact .inr (Option.bind_eq_some_iff.mp hl)

theorem lead?_of_place {p : Place} (hp : s.place? classes h receiver = some p) (hu : h.at? p = some u) :
    s.lead? classes h receiver = some u := by
  have hv : receiver ≠ .null := by
    rintro rfl
    cases ref?_of_place? hp
  rw [lead?_of_ne_null hv, hp]
  exact hu

theorem exists_lead?_of_meets {name : String} {safe : Bool} (hv : v ≠ .null)
    (hmeets : (property name safe).meets classes h v = true) : ∃ u, (property name safe).lead? classes h v = some u := by
  rw [lead?_of_ne_null hv]
  cases v with
  | null => exact absurd rfl hv
  | map a =>
    obtain ⟨entries, hentries⟩ := Option.isSome_iff_exists.mp hmeets
    exact ⟨(entries.get? name).getD .null, by simp only [place?, Option.bind_some, Heap.at?, hentries, Option.map_some]⟩
  | object c a =>
    have hmeets : ((classes.definition c).fieldIndex? name).any (· < (h.object a).length) = true := hmeets
    cases hi : (classes.definition c).fieldIndex? name with
    | none => rw [hi] at hmeets; cases hmeets
    | some i =>
      rw [hi] at hmeets
      have hlt : i < (h.object a).length := of_decide_eq_true hmeets
      exact ⟨(h.object a)[i].2, by
        simp only [place?, hi, Option.map_some, Option.bind_some, Heap.at?, List.getElem?_eq_getElem hlt]⟩
  | _ => cases hmeets

theorem leadAlong?_cons (s : Segment) (steps : List Segment) (v : Value) :
    leadAlong? classes h v (s :: steps) = (s.lead? classes h v).bind (leadAlong? classes h · steps) := rfl

theorem leadAlong?_append (first rest : List Segment) (v : Value) :
    leadAlong? classes h v (first ++ rest) = (leadAlong? classes h v first).bind (leadAlong? classes h · rest) := by
  induction first generalizing v with
  | nil => rfl
  | cons s first ih =>
    rw [List.cons_append, leadAlong?_cons, leadAlong?_cons]
    cases s.lead? classes h v with
    | none => rfl
    | some u => exact ih u

theorem meetAlong_append (first rest : List Segment) (v : Value) : meetAlong classes h v (first ++ rest) =
      (meetAlong classes h v first && ((leadAlong? classes h v first).map (meetAlong classes h · rest)).getD true) := by
  induction first generalizing v with
  | nil => rfl
  | cons s first ih =>
    rw [List.cons_append, meetAlong, meetAlong, leadAlong?_cons]
    cases s.lead? classes h v with
    | none => simp
    | some u => simp only [Option.map_some, Option.getD_some, Option.bind_some, ih, Bool.and_assoc]

end Segment

/-! ## Heaps without cycles -/

/-- A container holds another. -/
def Heap.Holds (h : Heap) (r r' : Ref) : Prop := ∃ p v, p.ref = r ∧ h.at? p = some v ∧ v.ref? = some r'

/-- No container holds itself, be it through others. -/
def Heap.Acyclic (h : Heap) : Prop := ∀ r, ¬ Relation.TransGen h.Holds r r

/-- A container is none of those that it reaches. -/
theorem Heap.Acyclic.ne_of_holds {h : Heap} {r r₁ r' : Ref} (hacyclic : h.Acyclic) (hhold : h.Holds r r₁)
    (hreach : Relation.ReflTransGen h.Holds r₁ r') : r' ≠ r := by
  rintro rfl
  exact hacyclic _ (.head' hhold hreach)

def Heap.contents (h : Heap) : Ref → List Value
  | .list a => (h.list a).toList
  | .array a => (h.array a).toList
  | .map a => (h.map a).entries.map (·.2)
  | .object a => (h.object a).map (·.2)

def Heap.refs (h : Heap) : List Ref :=
  (List.range h.lists.size).map .list ++ (List.range h.arrays.size).map .array ++ (List.range h.maps.size).map .map ++
    (List.range h.objects.size).map .object

/-- Whether containers hold none but such of a lower rank. -/
def Heap.descends (h : Heap) (rank : Ref → Nat) : Bool :=
  h.refs.all fun r => (h.contents r).all fun v => v.ref?.all fun r' => rank r' < rank r

theorem Heap.mem_contents_of_holds {h : Heap} {r r' : Ref} (hold : h.Holds r r') :
    ∃ v ∈ h.contents r, v.ref? = some r' := by
  obtain ⟨p, v, rfl, hv, href⟩ := hold
  refine ⟨v, ?_, href⟩
  cases p with
  | item a i => exact Array.mem_toList_iff.mpr (Array.mem_of_getElem? hv)
  | element a i => exact Array.mem_toList_iff.mpr (Array.mem_of_getElem? hv)
  | entry a key =>
    obtain ⟨entries, hentries, rfl⟩ := Option.map_eq_some_iff.mp hv
    cases hget : entries.get? key with
    | none => rw [hget] at href; cases href
    | some u =>
      have hmap : h.map a = entries := by rw [Heap.map, hentries]; rfl
      change u ∈ (h.map a).entries.map (·.2)
      rw [hmap]
      exact List.mem_map.mpr ⟨(key, u), Entries.mem_of_find? hget, rfl⟩
  | field a i =>
    obtain ⟨f, hf, rfl⟩ := Option.map_eq_some_iff.mp hv
    exact List.mem_map.mpr ⟨f, List.mem_of_getElem? hf, rfl⟩

theorem Heap.mem_refs_of_mem_contents {h : Heap} {r : Ref} {v : Value} (hv : v ∈ h.contents r) : r ∈ h.refs := by
  have hlt : ∀ {α : Type} {t : Table α} {a : Nat}, t.get? a ≠ none → a < t.size := fun hget =>
    Nat.not_le.mp fun hle => hget (Array.getElem?_eq_none hle)
  cases r with
  | list a =>
    have ha : a < h.lists.size := hlt fun hnone => by simp [contents, Heap.list, hnone] at hv
    simp [refs, ha]
  | array a =>
    have ha : a < h.arrays.size := hlt fun hnone => by simp [contents, Heap.array, hnone] at hv
    simp [refs, ha]
  | map a =>
    have ha : a < h.maps.size := hlt fun hnone => by simp [contents, Heap.map, hnone, Dict.empty] at hv
    simp [refs, ha]
  | object a =>
    have ha : a < h.objects.size := hlt fun hnone => by simp [contents, Heap.object, hnone] at hv
    simp [refs, ha]

/-- Where ranks descend, no container holds itself. -/
theorem Heap.acyclic_of_descends {h : Heap} {rank : Ref → Nat} (hrank : h.descends rank = true) : h.Acyclic := by
  have hstep : ∀ {r r'}, h.Holds r r' → rank r' < rank r := by
    intro r r' hold
    obtain ⟨v, hv, href⟩ := mem_contents_of_holds hold
    have hall := List.all_eq_true.mp (List.all_eq_true.mp hrank r (mem_refs_of_mem_contents hv)) v hv
    rw [href] at hall
    exact of_decide_eq_true hall
  have htrans : ∀ {r r'}, Relation.TransGen h.Holds r r' → rank r' < rank r := by
    intro r r' hr
    induction hr with
    | single hold => exact hstep hold
    | tail _ hold ih => exact Nat.lt_trans (hstep hold) ih
  exact fun r hr => Nat.lt_irrefl _ (htrans hr)

namespace Segment

variable {classes : ClassTable} {h h' : Heap} {v w : Value} {steps : List Segment} {q : Place} {r : Ref}

/-- Steps that lead to a container start at one, and reach it from there. -/
theorem reaches_of_leadAlong? (hl : leadAlong? classes h v steps = some w) (hw : w.ref? = some r) :
    ∃ r₀, v.ref? = some r₀ ∧ Relation.ReflTransGen h.Holds r₀ r := by
  induction steps generalizing v with
  | nil =>
    cases hl
    exact ⟨r, hw, .refl⟩
  | cons s steps ih =>
    obtain ⟨u, hu, hrest⟩ := Option.bind_eq_some_iff.mp hl
    obtain ⟨r₁, hr₁, hreach⟩ := ih hrest
    obtain ⟨-, -, rfl⟩ | ⟨p, hp, hat⟩ := lead?_cases hu
    · cases hr₁
    · exact ⟨p.ref, ref?_of_place? hp, .head ⟨p, u, rfl, hat, hr₁⟩ hreach⟩

/-- A write to a container leaves the way to it as it was, also if containers were made before. -/
theorem leadAlong?_put (hacyclic : h.Acyclic) (hext : h.Extends h') (hs : ∀ s ∈ steps, s.Constant)
    (hl : leadAlong? classes h v steps = some w) (hw : w.ref? = some q.ref) (x : Value) :
    leadAlong? classes (h'.put x q) v steps = some w := by
  induction steps generalizing v with
  | nil => exact hl
  | cons s steps ih =>
    obtain ⟨u, hu, hrest⟩ := Option.bind_eq_some_iff.mp hl
    obtain ⟨hfirst, hsteps⟩ := List.forall_mem_cons.mp hs
    refine Option.bind_eq_some_iff.mpr ⟨u, ?_, ih hsteps hrest⟩
    obtain ⟨rfl, hsafe, rfl⟩ | ⟨p, hp, hat⟩ := lead?_cases hu
    · rw [lead?_null, if_pos hsafe]
    · obtain ⟨r₁, hr₁, hreach⟩ := reaches_of_leadAlong? hrest hw
      have hne : q.ref ≠ p.ref := hacyclic.ne_of_holds ⟨p, u, rfl, hat, hr₁⟩ hreach
      refine lead?_of_place (p := p) ?_ ?_
      · rw [place?_put hfirst, place?_of_extends hfirst hext hp]
      · rw [Heap.at?_put_of_ne (ne_of_apply_ne Place.ref hne), hext.at?_eq hat]

end Segment

end PathScript
