import PathScript.Proofs.Lift
import PathScript.Proofs.Place

/-! # Members at places

A property or an index that stands for a place gives what the place holds, and
writing it stores there. The same holds of the names of a context: a map has its
entries, an object its fields. -/

namespace PathScript

/-! ## Reading -/

namespace Member

variable {host : Host} {classes : ClassTable} {h : Heap} {v u index : Value} {name : String} {safe : Bool} {p : Place}
  {n : Node}

theorem readProperty_eq (hp : (Segment.property name safe).place? host.classes h v = some p) (hu : h.at? p = some u) :
    readProperty host v name safe h = .ok u h := by
  cases v with
  | map a =>
    cases hp
    obtain ⟨entries, hentries, rfl⟩ := Option.map_eq_some_iff.mp hu
    change Outcome.ok (((h.map a).get? name).getD .null) h = _
    rw [Heap.map, hentries]
    rfl
  | object c a =>
    obtain ⟨i, hi, rfl⟩ := Option.map_eq_some_iff.mp hp
    have hfield : h.fieldAt a i = u := congrArg (·.getD .null) hu
    unfold readProperty
    dsimp only
    rw [hi]
    exact congrArg (Outcome.ok · h) hfield
  | _ => cases hp

theorem readIndex_eq (hp : v.indexed? h index = some p) (hu : h.at? p = some u) : readIndex v index safe h = .ok u h := by
  have element : ∀ {items : Array Value} {i : Nat}, (positionOf index items.size).toOption = some i → items[i]? = some u →
      (Run.ofExcept (positionOf index items.size) >>= fun i => pure (items[i]?.getD .null) : HeapM Value) h = .ok u h := by
    intro items i hi hu
    rw [Segment.eq_ok_of_toOption hi]
    exact congrArg (Outcome.ok · h) (congrArg (·.getD .null) hu)
  cases v with
  | list a =>
    obtain ⟨i, hi, rfl⟩ := Option.map_eq_some_iff.mp hp
    exact element hi hu
  | array a =>
    obtain ⟨i, hi, rfl⟩ := Option.map_eq_some_iff.mp hp
    exact element hi hu
  | map a =>
    obtain ⟨key, hkey, rfl⟩ := Option.map_eq_some_iff.mp hp
    obtain ⟨entries, hentries, rfl⟩ := Option.map_eq_some_iff.mp hu
    have hquery : (Run.query index.key : HeapM String) h = .ok key h := by rw [Run.query, hkey]
    refine (Run.bind_ok hquery _).trans ?_
    change Outcome.ok (((h.map a).get? key).getD .null) h = _
    rw [Heap.map, hentries]
    rfl
  | _ => cases hp

/-- An index that stands for no place of a container of which it could select one is refused. -/
theorem readIndex_error (hkey : ∃ key, index.key h = some key) (hnull : v ≠ .null)
    (hmeets : (Segment.index n safe).meets classes h v = true) (hp : (v.indexed? h index).bind h.at? = none) :
    ∃ e, readIndex v index safe h = .error e h := by
  have element : ∀ {items : Array Value} {g : Nat → Place}, (∀ i, h.at? (g i) = items[i]?) →
      ((positionOf index items.size).toOption.map g).bind h.at? = none →
      ∃ e, (Run.ofExcept (positionOf index items.size) >>= fun i => pure (items[i]?.getD .null) : HeapM Value) h =
        .error e h := by
    intro items g hg hnone
    cases hi : positionOf index items.size with
    | error e => exact ⟨e, rfl⟩
    | ok i =>
      have hlt := Segment.lt_of_positionOf hi
      rw [hi] at hnone
      have hnone : h.at? (g i) = none := hnone
      rw [hg, Array.getElem?_eq_none_iff] at hnone
      omega
  cases v with
  | null => exact absurd rfl hnull
  | list a => exact element (fun _ => rfl) hp
  | array a => exact element (fun _ => rfl) hp
  | map a =>
    obtain ⟨key, hkey⟩ := hkey
    obtain ⟨entries, hentries⟩ := Option.isSome_iff_exists.mp hmeets
    simp only [Value.indexed?, hkey, Option.map_some, Option.bind_some, Heap.at?, hentries] at hp
    cases hp
  | _ => cases hmeets

end Member

/-! ## The names of a context -/

section Contexts

variable (classes : ClassTable) (h : Heap)

/-- The place of a context that a name stands for. -/
def Value.named? (name : String) : Value → Option Place
  | map a => if (h.map a).contains name then some (.entry a name) else none
  | object c a => ((classes.definition c).fieldIndex? name).map (.field a)
  | _ => none

/-- Whether no getter or setter of a context is asked for a name. -/
def Value.meetsName (name : String) : Value → Bool
  | map a => (h.maps.get? a).isSome
  | object c a =>
    match (classes.definition c).fieldIndex? name with
    | some i => i < (h.object a).length
    | none => ((classes.definition c).getter? name).isNone && ((classes.definition c).setter? name).isNone
  | _ => true

end Contexts

namespace Member

variable {host : Host} {h : Heap} {ctx v : Value} {name : String} {p : Place}

theorem lookup?_of_named? (hp : ctx.named? host.classes h name = some p) (hv : h.at? p = some v) :
    lookup? host ctx name h = .ok (some v) h := by
  cases ctx with
  | map a =>
    simp only [Value.named?] at hp
    split at hp
    next hcontains =>
      cases hp
      obtain ⟨entries, hentries, rfl⟩ := Option.map_eq_some_iff.mp hv
      have hmap : h.map a = entries := by rw [Heap.map, hentries]; rfl
      obtain ⟨u, hu⟩ := Option.isSome_iff_exists.mp hcontains
      change Outcome.ok ((h.map a).get? name) h = _
      rw [hmap] at hu ⊢
      rw [hu]
      rfl
    next => cases hp
  | object c a =>
    obtain ⟨i, hi, rfl⟩ := Option.map_eq_some_iff.mp hp
    have hfield : h.fieldAt a i = v := congrArg (·.getD .null) hv
    unfold lookup?
    dsimp only
    rw [hi]
    exact congrArg (fun u => Outcome.ok (some u) h) hfield
  | _ => cases hp

/-- A name that stands for no place of a context is not found, and nothing is asked for it. -/
theorem lookup?_of_none (hmeets : ctx.meetsName host.classes h name = true)
    (hv : (ctx.named? host.classes h name).bind h.at? = none) : lookup? host ctx name h = .ok none h := by
  cases ctx with
  | map a =>
    obtain ⟨entries, hentries⟩ := Option.isSome_iff_exists.mp hmeets
    change Outcome.ok ((h.map a).get? name) h = _
    simp only [Value.named?] at hv
    split at hv
    next =>
      simp only [Option.bind_some, Heap.at?, hentries, Option.map_some] at hv
      cases hv
    next hcontains => rw [Option.not_isSome_iff_eq_none.mp hcontains]
  | object c a =>
    unfold lookup?
    simp only [Value.meetsName, Value.named?] at hmeets hv
    dsimp only
    cases hi : (host.classes.definition c).fieldIndex? name with
    | some i =>
      rw [hi] at hv hmeets
      have hlt : i < (h.object a).length := of_decide_eq_true hmeets
      simp only [Option.map_some, Option.bind_some, Heap.at?, List.getElem?_eq_getElem hlt] at hv
      cases hv
    | none =>
      rw [hi] at hmeets
      obtain ⟨hgetter, -⟩ := (Bool.and_eq_true _ _).mp hmeets
      dsimp only
      rw [Option.isNone_iff_eq_none.mp hgetter]
      rfl
  | _ => rfl

end Member

/-! ## Keys of a map that is written -/

/-- Heaps that differ in one map at most. -/
structure Heap.SameBut (a : Nat) (h h' : Heap) : Prop where
  size : h'.size = h.size
  list : h'.list = h.list
  array : h'.array = h.array
  object : h'.object = h.object
  map : ∀ b, a ≠ b → h'.map b = h.map b

theorem Heap.sameBut_modifyMap (h : Heap) (a : Nat) (f g : Dict Value → Dict Value) :
    (h.modifyMap a f).SameBut a (h.modifyMap a g) where
  size := by simp [Heap.size, modifyMap]
  list := rfl
  array := rfl
  object := rfl
  map b hne := by simp [Heap.map, modifyMap, Table.get?_update, hne]

theorem Heap.sameBut_of_modifyMap (h : Heap) (a : Nat) (f : Dict Value → Dict Value) : (h.modifyMap a f).SameBut a h where
  size := by simp [Heap.size, modifyMap]
  list := rfl
  array := rfl
  object := rfl
  map b hne := by simp [Heap.map, modifyMap, Table.get?_update, hne]

namespace Value

variable {h h' : Heap} {a : Nat} {v : Value} {key : String}

theorem mapM_of_mapM {α β : Type} {f g : α → Option β} (hfg : ∀ {x y}, f x = some y → g x = some y) {l : List α} {ys : List β}
    (h : l.mapM f = some ys) : l.mapM g = some ys := by
  induction l generalizing ys with
  | nil => exact h
  | cons x l ih =>
    simp only [List.mapM_cons, Option.bind_eq_bind, Option.bind_eq_some_iff] at h ⊢
    obtain ⟨y, hy, ys', hys, heq⟩ := h
    exact ⟨y, hfg hy, ys', ih hys, heq⟩

theorem nestedText_of_nestedText {f g : Value → Option String} (hfg : ∀ {v t}, f v = some t → g v = some t) {t : String}
    (h : nestedText f v = some t) : nestedText g v = some t := by
  cases v with
  | str | char => exact h
  | _ => exact hfg h

/-- A value that has a text where a map has none does not show the map, so it has that text whatever is in the map. -/
theorem textWithin_of_sameBut (hsame : h.SameBut a h') (hself : ∀ n, textWithin h n (.map a) = none) {n : Nat} {t : String}
    (ht : textWithin h n v = some t) : textWithin h' n v = some t := by
  induction n generalizing v t with
  | zero =>
    cases v with
    | list | array | map | object => cases ht
    | _ => exact ht
  | succ n ih =>
    have nested : ∀ {v t}, nestedText (textWithin h n) v = some t → nestedText (textWithin h' n) v = some t :=
      nestedText_of_nestedText ih
    have entry : ∀ {f : String → String} {v t}, ((nestedText (textWithin h n) v).bind fun s => some (f s)) = some t →
        ((nestedText (textWithin h' n) v).bind fun s => some (f s)) = some t := fun hs => by
      obtain ⟨s, hs, heq⟩ := Option.bind_eq_some_iff.mp hs
      exact Option.bind_eq_some_iff.mpr ⟨s, nested hs, heq⟩
    cases v with
    | list b =>
      obtain ⟨parts, hparts, heq⟩ := Option.bind_eq_some_iff.mp ht
      refine Option.bind_eq_some_iff.mpr ⟨parts, ?_, heq⟩
      rw [hsame.list]
      exact mapM_of_mapM nested hparts
    | array b =>
      obtain ⟨parts, hparts, heq⟩ := Option.bind_eq_some_iff.mp ht
      refine Option.bind_eq_some_iff.mpr ⟨parts, ?_, heq⟩
      rw [hsame.array]
      exact mapM_of_mapM nested hparts
    | map b =>
      have hne : a ≠ b := fun heq => by cases heq; rw [hself] at ht; cases ht
      obtain ⟨parts, hparts, heq⟩ := Option.bind_eq_some_iff.mp ht
      refine Option.bind_eq_some_iff.mpr ⟨parts, ?_, heq⟩
      rw [hsame.map b hne]
      exact mapM_of_mapM entry hparts
    | object c b =>
      obtain ⟨parts, hparts, heq⟩ := Option.bind_eq_some_iff.mp ht
      refine Option.bind_eq_some_iff.mpr ⟨parts, ?_, heq⟩
      rw [hsame.object]
      exact mapM_of_mapM entry hparts
    | _ => exact ht

theorem textWithin_holding (hmap : (h.maps.get? a).isSome = true) (n : Nat) : textWithin (h.holding a) n (.map a) = none := by
  obtain ⟨entries, hentries⟩ := Option.isSome_iff_exists.mp hmap
  have hmap : (h.holding a).map a = .ofList [("", .map a)] := by
    simp [Heap.holding, Heap.map, Heap.modifyMap, Table.get?_update, hentries]
  induction n with
  | zero => rfl
  | succ n ih =>
    have hnone : nestedText (textWithin (h.holding a) n) (.map a) = none := ih
    rw [textWithin, hmap]
    change Option.bind (List.mapM _ [("", Value.map a)]) _ = none
    simp [hnone]

/-- The key under which a map is written is the text of the index, before the write and after it. -/
theorem key_of_holding (hmap : (h.maps.get? a).isSome = true) (hkey : v.key (h.holding a) = some key)
    (hsame : (h.holding a).SameBut a h') : v.key h' = some key := by
  rw [Value.key, Value.text, hsame.size]
  exact textWithin_of_sameBut hsame (textWithin_holding hmap) hkey

end Value

/-! ## Writing -/

theorem ClassDef.isSome_field? (c : ClassDef) (name : String) : (c.field? name).isSome = (c.fieldIndex? name).isSome := by
  rw [field?, fieldIndex?, List.findIdx?_isSome, Bool.eq_iff_iff, List.find?_isSome, List.any_eq_true]

namespace Member

variable {h h' : Heap} {target index v w : Value} {name : String} {safe : Bool} {n : Node}

theorem writeField_eq_ok {host : Host} {c : ClassRef} {a i : Nat} (hi : (host.classes.definition c).fieldIndex? name = some i)
    (hw : writeProperty host (.object c a) name v h = .ok w h') : ∃ field h₁,
      (host.classes.definition c).field? name = some field ∧ host.converter.convert v field.ty h = .ok w h₁ ∧
      h' = h₁.put w (.field a i) := by
  obtain ⟨field, hfield⟩ : ∃ field, (host.classes.definition c).field? name = some field := by
    rw [← Option.isSome_iff_exists, ClassDef.isSome_field?, hi]
    rfl
  unfold writeProperty at hw
  dsimp only at hw
  rw [hi, hfield] at hw
  obtain ⟨stored, h₁, hconvert, hw⟩ := Run.bind_eq_ok.mp hw
  cases hw
  exact ⟨field, h₁, hfield, hconvert, rfl⟩

/-- A property that was written stands for a place, and what was stored is there. -/
theorem writeProperty_eq_ok (host : Host) (hkeeps : host.converter.Keeps)
    (hmeets : (Segment.property name safe).meets host.classes h target = true)
    (hw : writeProperty host target name v h = .ok w h') :
    ∃ h₁ p, (Segment.property name safe).place? host.classes h target = some p ∧ h.Extends h₁ ∧ (h.at? p).isSome = true ∧
      h' = h₁.put w p := by
  cases target with
  | null => cases hw
  | map a =>
    cases hw
    exact ⟨h, .entry a name, rfl, .refl h, by simpa [Heap.at?, Segment.meets] using hmeets, rfl⟩
  | object c a =>
    have hmeets : ((host.classes.definition c).fieldIndex? name).any (· < (h.object a).length) = true := hmeets
    obtain ⟨i, hi⟩ : ∃ i, (host.classes.definition c).fieldIndex? name = some i := by
      cases hi : (host.classes.definition c).fieldIndex? name with
      | none => rw [hi] at hmeets; cases hmeets
      | some i => exact ⟨i, rfl⟩
    rw [hi] at hmeets
    have hlt : i < (h.object a).length := of_decide_eq_true hmeets
    obtain ⟨field, h₁, -, hconvert, rfl⟩ := writeField_eq_ok hi hw
    refine ⟨h₁, .field a i, by rw [Segment.place?, hi]; rfl, hkeeps hconvert, ?_, rfl⟩
    simp [Heap.at?, hlt]
  | _ => cases hmeets

/-- A context that has a name to write, with no setter asked for it, has a place for it. -/
theorem meets_of_isWritable (host : Host) (hmeets : target.meetsName host.classes h name = true)
    (hwritable : isWritable host h target name = true) (safe : Bool) :
    (Segment.property name safe).meets host.classes h target = true := by
  cases target with
  | map a => exact hmeets
  | object c a =>
    simp only [Value.meetsName] at hmeets
    simp only [isWritable, ClassDef.isSome_field?] at hwritable
    simp only [Segment.meets]
    cases hi : (host.classes.definition c).fieldIndex? name with
    | some i =>
      rw [hi] at hmeets
      exact hmeets
    | none =>
      rw [hi] at hmeets hwritable
      obtain ⟨-, hsetter⟩ := (Bool.and_eq_true _ _).mp hmeets
      rw [Option.isNone_iff_eq_none.mp hsetter] at hwritable
      cases hwritable
  | _ => cases hwritable

/-- An index that was written selects a place, before and after, and what was stored is there. -/
theorem writeIndex_eq_ok {classes : ClassTable} (hmeets : (Segment.index n safe).meets classes h target = true)
    (hw : writeIndex target index v h = .ok w h') :
    ∃ p, target.indexed? h index = some p ∧ (h.at? p).isSome = true ∧ h' = h.put w p ∧ target.indexed? h' index = some p := by
  have element : ∀ (items : Array Value) (g : Nat → Place), (∀ i, h.at? (g i) = items[i]?) →
      (Run.ofExcept (positionOf index items.size) >>= fun i => Run.modify (·.put v (g i)) >>= fun _ => pure v : HeapM Value) h =
        .ok w h' →
      ∃ p, (positionOf index items.size).toOption.map g = some p ∧ (h.at? p).isSome = true ∧ h' = h.put w p := by
    intro items g hg hw
    cases hi : positionOf index items.size with
    | error e => rw [hi] at hw; cases hw
    | ok i =>
      rw [hi] at hw
      cases hw
      have hlt := Segment.lt_of_positionOf hi
      exact ⟨g i, rfl, by simp [hg, hlt], rfl⟩
  cases target with
  | null =>
    obtain ⟨text, h₁, -, hw⟩ := Run.bind_eq_ok.mp hw
    cases hw
  | list a =>
    obtain ⟨p, hp, hat, rfl⟩ := element (h.list a) (.item a) (fun _ => rfl) hw
    exact ⟨p, hp, hat, rfl, by rw [← hp, Value.indexed?, Heap.size_list_put]⟩
  | array a =>
    obtain ⟨p, hp, hat, rfl⟩ := element (h.array a) (.element a) (fun _ => rfl) hw
    exact ⟨p, hp, hat, rfl, by rw [← hp, Value.indexed?, Heap.size_array_put]⟩
  | map a =>
    obtain ⟨key, h₁, hquery, hwrite⟩ := Run.bind_eq_ok.mp hw
    obtain ⟨hkey, rfl⟩ := Run.query_eq_ok.mp hquery
    cases hwrite
    have hbefore := Value.key_of_holding hmeets hkey (Heap.sameBut_of_modifyMap ..)
    have hafter := Value.key_of_holding hmeets hkey (Heap.sameBut_modifyMap _ _ _ (·.insert key v))
    refine ⟨.entry a key, by rw [Value.indexed?, hbefore]; rfl, by simpa [Heap.at?, Segment.meets] using hmeets, rfl, ?_⟩
    exact congrArg (Option.map (Place.entry a)) hafter
  | _ => cases hmeets

end Member

/-- A write to another container leaves the place of a context that a name stands for. -/
theorem Value.named?_put {classes : ClassTable} {h h' : Heap} {ctx : Value} {name : String} {p q : Place}
    (hp : ctx.named? classes h name = some p) (hat : (h.at? p).isSome = true) (hext : h.Extends h') (hne : q.ref ≠ p.ref)
    (x : Value) : ctx.named? classes (h'.put x q) name = some p := by
  cases ctx with
  | map a =>
    simp only [named?] at hp ⊢
    split at hp
    next hcontains =>
      cases hp
      obtain ⟨entries, hentries⟩ : ∃ entries, h.maps.get? a = some entries := by
        simpa [Heap.at?, Option.isSome_iff_exists] using hat
      have hcell : (h'.put x q).maps.get? a = h.maps.get? a := by
        rw [Heap.maps_put_of_ne hne, hentries, hext.maps hentries]
      rw [Heap.map, hcell]
      exact if_pos hcontains
    next => cases hp
  | object c a => exact hp
  | _ => cases hp

/-- What was written at the place of a property is what the name then holds in the context. -/
theorem Value.named?_bind_put {classes : ClassTable} {h : Heap} {ctx : Value} {name : String} {safe : Bool} {p : Place}
    (hp : (Segment.property name safe).place? classes h ctx = some p) {h' : Heap} (hat : (h'.at? p).isSome = true)
    (x : Value) : (ctx.named? classes (h'.put x p) name).bind (h'.put x p).at? = some x := by
  refine Option.bind_eq_some_iff.mpr ⟨p, ?_, Heap.at?_put hat x⟩
  cases ctx with
  | map a =>
    cases hp
    obtain ⟨entries, hentries⟩ : ∃ entries, h'.maps.get? a = some entries := by
      simpa [Heap.at?, Option.isSome_iff_exists] using hat
    have hcontains : ((h'.put x (.entry a name)).map a).contains name = true := by
      simp [Heap.put, Heap.modifyMap, Heap.map, Table.get?_update, hentries, Dict.contains]
    exact if_pos hcontains
  | object c a => exact hp
  | _ => cases hp

end PathScript
