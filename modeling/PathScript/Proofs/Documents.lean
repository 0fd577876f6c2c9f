import PathScript.Proofs.Endless
import PathScript.Value.Document

/-! # Documents and back

Documents are trees, while the lists and maps of values are cells, which may be
shared. A value represents a document if it has its structure, with the same types
and in the same order, wherever its cells are. Then it becomes that document, and
what the document becomes represents it as well. -/

namespace PathScript

/-- Data whose numbers are 64-bit integers or finite, and whose maps have every key once. -/
inductive Document.Plain : Document → Prop
  | null : Plain .null
  | bool (b : Bool) : Plain (.bool b)
  | int (n : Int64) : Plain (.int n.toInt)
  | float {x : Float} (hx : x.isFinite = true) : Plain (.float x)
  | str (s : String) : Plain (.str s)
  | list {ds : List Document} (hitems : ∀ d ∈ ds, Plain d) : Plain (.list ds)
  | map {es : List (String × Document)} (hkeys : (Entries.keys es).Nodup) (hvalues : ∀ d ∈ es.map (·.2), Plain d) :
    Plain (.map es)

namespace Heap

variable {h h' h'' : Heap}

theorem Extends.trans (hfirst : h.Extends h') (hsecond : h'.Extends h'') : h.Extends h'' :=
  ⟨fun hget => hsecond.lists (hfirst.lists hget), fun hget => hsecond.arrays (hfirst.arrays hget),
    fun hget => hsecond.maps (hfirst.maps hget), fun hget => hsecond.objects (hfirst.objects hget)⟩

theorem Extends.newMap (h : Heap) (entries : Dict Value) : h.Extends (h.newMap entries).2 :=
  ⟨id, id, fun hget => Table.get?_alloc_of_some hget _, id⟩

theorem not_endless_of_contents {v : Value} {r : Ref} (hr : v.container? true = some r)
    (hinside : ∀ w ∈ h.contents r, ¬h.Endless true w) : ¬h.Endless true v := by
  rintro ⟨s, ⟨r', hr', hreach⟩, hloop⟩
  cases hr.symm.trans hr'
  obtain ⟨r₁, ⟨w, hw, hr₁⟩, hrest⟩ := Relation.TransGen.head'_iff.mp (Relation.TransGen.trans_right hreach hloop)
  exact hinside w hw ⟨s, ⟨r₁, hr₁, hrest⟩, hloop⟩

end Heap

namespace Value

/-- A value is built like a document, out of nothing but `null`, booleans, integers, finite doubles, texts, lists and
maps. None of these holds itself, because a document has an end. -/
inductive Represents (h : Heap) : Value → Document → Prop
  | null : Represents h null .null
  | bool (b : Bool) : Represents h (bool b) (.bool b)
  | int (n : Int64) : Represents h (int n) (.int n.toInt)
  | float {x : Float} (hx : x.isFinite = true) : Represents h (float x) (.float x)
  | str (s : String) : Represents h (str s) (.str s)
  | list {a : Nat} {items : Array Value} {ds : List Document} (hcell : h.lists.get? a = some items)
    (hlength : items.toList.length = ds.length) (hitems : ∀ v d, (v, d) ∈ items.toList.zip ds → Represents h v d) :
    Represents h (list a) (.list ds)
  | map {a : Nat} {entries : Dict Value} {es : List (String × Document)} (hcell : h.maps.get? a = some entries)
    (hkeys : entries.keys = Entries.keys es)
    (hvalues : ∀ v d, (v, d) ∈ entries.values.zip (es.map (·.2)) → Represents h v d) : Represents h (map a) (.map es)

variable {h h' : Heap} {v : Value} {d : Document}

theorem Represents.mono (hext : h.Extends h') (hv : v.Represents h d) : v.Represents h' d := by
  induction hv with
  | null => exact .null
  | bool b => exact .bool b
  | int n => exact .int n
  | float hx => exact .float hx
  | str s => exact .str s
  | list hcell hlength _ ih => exact .list (hext.lists hcell) hlength ih
  | map hcell hkeys _ ih => exact .map (hext.maps hcell) hkeys ih

/-! ## From values -/

/-- A document is plain, and a value becomes it as deep as the value goes, which has an end. -/
structure Becomes (h : Heap) (v : Value) (d : Document) : Prop where
  plain : d.Plain
  ends : ¬h.Endless true v
  document : ∀ n, h.EndsWithin true n v → documentWithin h n v = some d

theorem becomes_all {vs : List Value} {ds : List Document} (hlength : vs.length = ds.length)
    (hvs : ∀ v d, (v, d) ∈ vs.zip ds → Becomes h v d) : (∀ d ∈ ds, d.Plain) ∧ (∀ v ∈ vs, ¬h.Endless true v) ∧
      ∀ n, (∀ v ∈ vs, h.EndsWithin true n v) → vs.mapM (documentWithin h n) = some ds := by
  have hall : List.Forall₂ (Becomes h) vs ds := List.forall₂_iff_zip.mpr ⟨hlength, hvs _ _⟩
  clear hvs hlength
  induction hall with
  | nil => exact ⟨nofun, nofun, fun n _ => rfl⟩
  | cons hv _ ih =>
    obtain ⟨hplain, hends, hdocuments⟩ := ih
    refine ⟨List.forall_mem_cons.mpr ⟨hv.plain, hplain⟩, List.forall_mem_cons.mpr ⟨hv.ends, hends⟩, fun n hwithin => ?_⟩
    obtain ⟨hfirst, hrest⟩ := List.forall_mem_cons.mp hwithin
    rw [List.mapM_cons, hv.document n hfirst, hdocuments n hrest]
    rfl

theorem Becomes.simple (hplain : d.Plain) (hv : v.container? true = none) (hdocument : ∀ n, documentWithin h n v = some d) :
    Becomes h v d := by
  refine ⟨hplain, ?_, fun n _ => hdocument n⟩
  rintro ⟨r, ⟨r', hr, -⟩, -⟩
  rw [hv] at hr
  cases hr

/-- What a container becomes, given what it becomes where its contents do. -/
theorem Becomes.container {r : Ref} (hplain : d.Plain) (hv : v.container? true = some r)
    (hends : ∀ w ∈ h.contents r, ¬h.Endless true w)
    (hdocument : ∀ n, (∀ w ∈ h.contents r, h.EndsWithin true n w) → documentWithin h (n + 1) v = some d) :
    Becomes h v d := by
  refine ⟨hplain, Heap.not_endless_of_contents hv hends, fun n hwithin => ?_⟩
  cases n with
  | zero =>
    rw [Heap.EndsWithin, hv] at hwithin
    cases hwithin
  | succ n => exact hdocument n ((Heap.endsWithin_succ hv).mp hwithin)

theorem mapM_entries (f : Value → Option Document) (entries : List (String × Value)) :
    entries.mapM (fun e => do pure (e.1, ← f e.2)) = ((entries.map (·.2)).mapM f).map (Entries.keys entries).zip := by
  induction entries with
  | nil => rfl
  | cons e entries ih =>
    rw [List.mapM_cons, ih, List.map_cons, List.mapM_cons]
    cases f e.2 <;> cases (entries.map (·.2)).mapM f <;> rfl

theorem zip_entries (es : List (String × Document)) : (Entries.keys es).zip (es.map (·.2)) = es :=
  (List.zip_of_prod rfl rfl).symm

theorem Represents.becomes (hv : v.Represents h d) : Becomes h v d := by
  induction hv with
  | null => exact .simple .null rfl fun n => by cases n <;> rfl
  | bool b => exact .simple (.bool b) rfl fun n => by cases n <;> rfl
  | int i => exact .simple (.int i) rfl fun n => by cases n <;> rfl
  | str s => exact .simple (.str s) rfl fun n => by cases n <;> rfl
  | float hx => exact .simple (.float hx) rfl fun n => by cases n <;> simp [documentWithin, hx]
  | @list a items ds hcell hlength _ ih =>
    obtain ⟨hplain, hends, hdocuments⟩ := becomes_all hlength ih
    have hitems : h.list a = items := by rw [Heap.list, hcell, Option.getD_some]
    refine .container (.list hplain) rfl (by rwa [Heap.contents, hitems]) fun n hwithin => ?_
    rw [Heap.contents, hitems] at hwithin
    rw [documentWithin, hitems, hdocuments n hwithin]
    rfl
  | @map a entries es hcell hkeys _ ih =>
    have hlength : entries.values.length = (es.map (·.2)).length := by
      simpa [Dict.keys, Dict.values, Entries.keys] using congrArg List.length hkeys
    obtain ⟨hplain, hends, hdocuments⟩ := becomes_all hlength ih
    have hentries : h.map a = entries := by rw [Heap.map, hcell, Option.getD_some]
    refine .container (.map (hkeys ▸ entries.nodup_keys) hplain) rfl (by rwa [Heap.contents, hentries]) fun n hwithin => ?_
    rw [Heap.contents, hentries] at hwithin
    rw [documentWithin, hentries, mapM_entries, show (entries.entries.map (·.2)).mapM _ = _ from hdocuments n hwithin]
    exact congrArg (fun es => some (Document.map es)) ((congrArg (List.zip · _) hkeys).trans (zip_entries es))

theorem Represents.document (hv : v.Represents h d) : v.document h = some d :=
  hv.becomes.document _ (Heap.endsWithin_of_not_endless hv.becomes.ends)

/-! ## From documents -/

/-- A document becomes a value that represents it, in new cells. -/
def Returns (ε : Type) (d : Document) : Prop :=
  ∀ h, ∃ v h', (ofDocument d : Run Heap ε Value) h = .ok v h' ∧ h.Extends h' ∧ v.Represents h' d

theorem ofDocuments_returns {ε : Type} {ds : List Document} (hds : ∀ d ∈ ds, Returns ε d) (h : Heap) :
    ∃ vs h', (ofDocuments ds : Run Heap ε (List Value)) h = .ok vs h' ∧ h.Extends h' ∧
      List.Forall₂ (Represents h') vs ds := by
  induction ds generalizing h with
  | nil => exact ⟨[], h, rfl, .refl h, .nil⟩
  | cons d ds ih =>
    obtain ⟨hd, hds⟩ := List.forall_mem_cons.mp hds
    obtain ⟨v, h₁, hrun, hext, hv⟩ := hd h
    obtain ⟨vs, h₂, hruns, hexts, hvs⟩ := ih hds h₁
    refine ⟨v :: vs, h₂, ?_, hext.trans hexts, .cons (hv.mono hexts) hvs⟩
    rw [ofDocuments, Run.bind_ok hrun, Run.bind_ok hruns, Run.pure_apply]

theorem ofEntries_eq {ε : Type} (es : List (String × Document)) :
    (ofEntries es : Run Heap ε _) = (do pure ((Entries.keys es).zip (← ofDocuments (es.map (·.2))))) := by
  induction es with
  | nil => rfl
  | cons e es ih =>
    rw [ofEntries, ih, List.map_cons, ofDocuments]
    simp only [bind_assoc, pure_bind]
    rfl

theorem Represents.newList {vs : List Value} {ds : List Document} (hvs : List.Forall₂ (Represents h) vs ds) :
    (h.newList vs.toArray).1.Represents (h.newList vs.toArray).2 (.list ds) := by
  have hcell : (h.newList vs.toArray).2.lists.get? h.lists.size = some vs.toArray := by simp [Heap.newList, Table.get?_alloc]
  obtain ⟨hlength, hpairs⟩ := List.forall₂_iff_zip.mp hvs
  exact .list hcell hlength fun v d hvd => (hpairs hvd).mono (.newList h _)

theorem Represents.newMap {dict : Dict Value} {es : List (String × Document)} (hkeys : dict.keys = Entries.keys es)
    (hvalues : List.Forall₂ (Represents h) dict.values (es.map (·.2))) :
    (h.newMap dict).1.Represents (h.newMap dict).2 (.map es) := by
  have hcell : (h.newMap dict).2.maps.get? h.maps.size = some dict := by simp [Heap.newMap, Table.get?_alloc]
  exact .map hcell hkeys fun v d hvd => ((List.forall₂_iff_zip.mp hvalues).2 hvd).mono (.newMap h _)

theorem ofDocument_returns {ε : Type} (hd : d.Plain) : Returns ε d := by
  induction hd with
  | null => exact fun h => ⟨_, h, rfl, .refl h, .null⟩
  | bool b => exact fun h => ⟨_, h, rfl, .refl h, .bool b⟩
  | str s => exact fun h => ⟨_, h, rfl, .refl h, .str s⟩
  | float hx => exact fun h => ⟨_, h, rfl, .refl h, .float hx⟩
  | int n =>
    have hn : ofInteger n.toInt = int n := by
      rw [ofInteger, if_pos ⟨Int64.minValue_le_toInt n, Int64.toInt_le n⟩, Int64.ofInt_toInt]
    exact fun h => ⟨_, h, rfl, .refl h, hn ▸ .int n⟩
  | list _ ih =>
    intro h
    obtain ⟨vs, h₁, hruns, hext, hvs⟩ := ofDocuments_returns ih h
    refine ⟨_, _, ?_, hext.trans (.newList h₁ _), .newList hvs⟩
    rw [ofDocument, Run.bind_ok hruns]
    rfl
  | @map es hkeys _ ih =>
    intro h
    obtain ⟨vs, h₁, hruns, hext, hvs⟩ := ofDocuments_returns ih h
    have hlength : (Entries.keys es).length = vs.length := by simpa [Entries.keys] using hvs.length_eq.symm
    have hfirst : Entries.keys ((Entries.keys es).zip vs) = Entries.keys es := List.map_fst_zip (Nat.le_of_eq hlength)
    -- The keys are distinct, so the map has all the entries in their order.
    let dict : Dict Value := ⟨(Entries.keys es).zip vs, by rwa [hfirst]⟩
    have hvalues : dict.values = vs := List.map_snd_zip (Nat.le_of_eq hlength.symm)
    refine ⟨_, _, ?_, hext.trans (.newMap h₁ dict), .newMap hfirst (hvalues ▸ hvs)⟩
    have hentries : (ofEntries es : Run Heap ε _) h = .ok dict.entries h₁ := by
      rw [ofEntries_eq, Run.bind_ok hruns, Run.pure_apply]
    rw [ofDocument, Run.bind_ok hentries, Dict.ofList_entries]
    rfl

/-- A document of plain data becomes a value that represents it and becomes that document again. A value that represents a
document becomes it, and the document becomes a value that represents it as well: it has the structure of the first one,
with the same types and in the same order. -/
theorem documents_round_trip (ε : Type) (h : Heap) :
    (∀ d : Document, d.Plain → ∃ v h', (ofDocument d : Run Heap ε Value) h = .ok v h' ∧ v.Represents h' d ∧
      v.document h' = some d) ∧ (∀ v d, Represents h v d → v.document h = some d ∧
      ∃ w h', (ofDocument d : Run Heap ε Value) h = .ok w h' ∧ w.Represents h' d ∧ v.Represents h' d) := by
  constructor
  · intro d hd
    obtain ⟨v, h', hrun, -, hv⟩ := ofDocument_returns hd h
    exact ⟨v, h', hrun, hv, hv.document⟩
  · intro v d hv
    obtain ⟨w, h', hrun, hext, hw⟩ := ofDocument_returns hv.becomes.plain h
    exact ⟨hv.document, w, h', hrun, hw, hv.mono hext⟩

/-- The least integer and an empty list, under keys that are not in alphabetical order. -/
theorem documents_round_trip_nested :
    let d := Document.map [("b", .list [.int Int64.minValue.toInt, .list []]), ("a", .str "1")]
    ∃ v h', (ofDocument d : Run Heap Error Value) .empty = .ok v h' ∧ v.document h' = some d := by
  intro d
  have hinner : Document.Plain (.list [.int Int64.minValue.toInt, .list []]) := by
    refine .list (List.forall_mem_cons.mpr ⟨.int _, List.forall_mem_singleton.mpr (.list nofun)⟩)
  have hplain : d.Plain :=
    .map (by decide) (List.forall_mem_cons.mpr ⟨hinner, List.forall_mem_singleton.mpr (.str "1")⟩)
  obtain ⟨v, h', hrun, -, hdocument⟩ := (documents_round_trip Error .empty).1 d hplain
  exact ⟨v, h', hrun, hdocument⟩

end Value

end PathScript
