import PathScript.Proofs.Formed
import PathScript.Proofs.Member

/-! # Maps in order of insertion

A map is written by the entries of its literal, as a property, by an index and
by members, always under the text of the key. The log of these writes tells what
the map is. -/

namespace PathScript

/-! ## Logs -/

/-- What a write does to a map. -/
inductive MapChange where
  | put (key : String) (v : Value)
  | remove (key : String)
  | clear

namespace MapChange

def apply : MapChange → Dict Value → Dict Value
  | put key v, d => d.insert key v
  | remove key, d => d.erase key
  | clear, _ => .empty

/-- The value last written to a key that has not been removed since; the last change comes first. -/
def last? (key : String) : List MapChange → Option Value
  | [] => none
  | put k v :: earlier => if k = key then some v else last? key earlier
  | remove k :: earlier => if k = key then none else last? key earlier
  | clear :: _ => none

/-- How many changes there were before the key came in, when it last did. -/
def since (key : String) : List MapChange → Nat
  | [] => 0
  | put k _ :: earlier => if k = key ∧ last? key earlier = none then earlier.length else since key earlier
  | _ :: earlier => since key earlier

theorem since_lt {key : String} {log : List MapChange} (h : (last? key log).isSome = true) : since key log < log.length := by
  induction log with
  | nil => cases h
  | cons c earlier ih =>
    cases c with
    | put k v =>
      rw [since]
      split
      next => exact Nat.lt_succ_self _
      next hnew =>
        refine Nat.lt_succ_of_lt (ih ?_)
        by_cases hk : k = key
        · exact Option.isSome_iff_ne_none.mpr fun hnone => hnew ⟨hk, hnone⟩
        · rwa [last?, if_neg hk] at h
    | remove k =>
      rw [last?] at h
      split at h
      next => cases h
      next => exact Nat.lt_succ_of_lt (ih h)
    | clear => cases h

/-- A dictionary has the values and the order of a log. -/
structure Tells (log : List MapChange) (d : Dict Value) : Prop where
  get : ∀ key, d.get? key = last? key log
  order : d.keys.Pairwise fun k k' => since k log < since k' log

namespace Tells

variable {log : List MapChange} {d : Dict Value}

theorem mem_keys (h : Tells log d) {key : String} : key ∈ d.keys ↔ (last? key log).isSome = true := by
  rw [← Dict.contains_iff, Dict.contains, h.get]

theorem empty : Tells [] .empty := ⟨fun _ => rfl, .nil⟩

theorem apply (h : Tells log d) (c : MapChange) : Tells (c :: log) (c.apply d) := by
  cases c with
  | put k v =>
    refine ⟨fun key => by rw [MapChange.apply, Dict.get?_insert, last?, h.get], ?_⟩
    -- A key that was there before keeps its time.
    have hold : ∀ key ∈ d.keys, since key (.put k v :: log) = since key log := fun key hkey =>
      if_neg fun hnew => absurd hnew.2 (Option.isSome_iff_ne_none.mp (h.mem_keys.mp hkey))
    have hkept : d.keys.Pairwise fun k₁ k₂ => since k₁ (.put k v :: log) < since k₂ (.put k v :: log) :=
      h.order.imp_of_mem fun h₁ h₂ hlt => by rwa [hold _ h₁, hold _ h₂]
    rw [MapChange.apply, Dict.keys_insert]
    split
    next => exact hkept
    next hnew =>
      have hsince : since k (.put k v :: log) = log.length :=
        if_pos ⟨rfl, Option.not_isSome_iff_eq_none.mp (mt h.mem_keys.mpr hnew)⟩
      refine List.pairwise_append.mpr ⟨hkept, List.pairwise_singleton _ _, fun k₁ h₁ k₂ h₂ => ?_⟩
      rw [List.mem_singleton.mp h₂, hold _ h₁, hsince]
      exact since_lt (h.mem_keys.mp h₁)
  | remove k =>
    refine ⟨fun key => by rw [MapChange.apply, Dict.get?_erase, last?, h.get], ?_⟩
    rw [MapChange.apply, Dict.keys_erase]
    exact h.order.sublist List.erase_sublist
  | clear => exact ⟨fun _ => rfl, .nil⟩

theorem entries_eq (h : Tells log d) : d.entries = d.keys.map fun key => (key, (last? key log).getD .null) := by
  rw [Dict.keys, Entries.keys, List.map_map]
  refine (List.map_id _).symm.trans (List.map_congr_left fun e he => ?_)
  rw [Function.comp_apply, ← h.get, Dict.get?_of_mem he]
  rfl

end Tells

end MapChange

/-! ## Writes -/

namespace Member

variable {host : Host} {a : Nat} {nullSafe : Bool} {h : Heap}

theorem fits?_any (args : List Value) :
    fits? (args.map fun _ => .any) (args.map Value.typeOf) = some (args.map fun v => Ty.conformance .any v.typeOf) := by
  have haccepts : ∀ t, (Ty.conformance .any t).accepts = true := fun t => by cases t <;> rfl
  have hzip : List.zipWith Ty.conformance (args.map fun _ => .any) (args.map Value.typeOf) =
      args.map fun v => Ty.conformance .any v.typeOf := by rw [List.zipWith_map, List.zipWith_self]
  have hall : (args.map fun v => Ty.conformance .any v.typeOf).all Conformance.accepts = true := by
    simp [haccepts]
  rw [fits?, if_pos (by rw [List.length_map, List.length_map]), hzip, if_pos hall]

theorem coerceArgs_any (converter : Converter) (args : List Value) :
    coerceArgs converter args (args.map fun _ => .any) (args.map fun v => Ty.conformance .any v.typeOf) = pure args := by
  induction args with
  | nil => rfl
  | cons v args ih =>
    have hcoerce : coerce converter v .any (Ty.conformance .any v.typeOf) = pure v := by simp [coerce]
    rw [List.map_cons, List.map_cons, coerceArgs, hcoerce, ih, pure_bind, pure_bind]

/-- A member of maps that is alone with its name and number of parameters takes arguments as they are. -/
theorem call_map {name : String} {args : List Value} {m : MethodDef}
    (hm : Builtin.mapClass.methodsNamed name args.length false = [m]) (hparams : m.params = args.map fun _ => .any)
    (hinstance : m.isStatic = false) : call host (.map a) name args nullSafe = m.invoke (.map a) args := by
  have hresolve : resolve? host.classes (.map a) name (args.map Value.typeOf) =
      some ⟨m, args.map fun v => Ty.conformance .any v.typeOf⟩ := by
    simp only [resolve?, ClassTable.classOf?, Option.bind_some, List.length_map, hm, resolveOverload, List.foldl_cons,
      List.foldl_nil, betterOf, hparams, fits?_any]
  simp only [call, hresolve, invoke, hparams, coerceArgs_any, pure_bind, hinstance, Value.isNull]
  rfl

end Member

/-- A write to a map. -/
inductive MapWrite where
  | property (name : String) (v : Value)
  | index (key v : Value)
  | put (key v : Value)
  | remove (key : Value)
  | clear

namespace MapWrite

variable {host : Host} {a : Nat} {h : Heap} {w : MapWrite} {c : MapChange}

def run (host : Host) (a : Nat) : MapWrite → HeapM Value
  | property name v => Member.writeProperty host (.map a) name v
  | index key v => Member.writeIndex (.map a) key v
  | put key v => Member.call host (.map a) "put" [key, v] false
  | remove key => Member.call host (.map a) "remove" [key] false
  | clear => Member.call host (.map a) "clear" [] false

/-- What a write changes, if its key has a text. The map that an index is written to cannot be read for it. -/
def change? (a : Nat) (h : Heap) : MapWrite → Option MapChange
  | property name v => some (.put name v)
  | index key v => (key.text (h.holding a)).map (.put · v)
  | put key v => (key.text h).map (.put · v)
  | remove key => (key.text h).map .remove
  | clear => some .clear

theorem run_eq_ok {d : Dict Value} (hmap : h.maps.get? a = some d) (hc : w.change? a h = some c) :
    ∃ r h', w.run host a h = .ok r h' ∧ h'.maps.get? a = some (c.apply d) := by
  have hmodify : ∀ f, (h.modifyMap a f).maps.get? a = some (f d) := fun f => by
    simp [Heap.modifyMap, Table.get?_update, hmap]
  have display : ∀ {key k}, Value.text h key = some k → key.display h = .ok k h := fun hk => Run.query_eq_ok.mpr ⟨hk, rfl⟩
  cases w with
  | property name v =>
    cases hc
    exact ⟨v, _, rfl, hmodify _⟩
  | index key v =>
    obtain ⟨k, hk, rfl⟩ := Option.map_eq_some_iff.mp hc
    refine ⟨v, _, ?_, hmodify (·.insert k v)⟩
    have hkey : (Run.query fun h : Heap => key.key (h.holding a) : HeapM String) h = .ok k h :=
      Run.query_eq_ok.mpr ⟨hk, rfl⟩
    exact Run.bind_ok hkey _
  | put key v =>
    obtain ⟨k, hk, rfl⟩ := Option.map_eq_some_iff.mp hc
    refine ⟨((h.map a).get? k).getD .null, _, ?_, hmodify (·.insert k v)⟩
    rw [run, Member.call_map rfl rfl rfl]
    exact Run.bind_ok (display hk) _
  | remove key =>
    obtain ⟨k, hk, rfl⟩ := Option.map_eq_some_iff.mp hc
    refine ⟨((h.map a).get? k).getD .null, _, ?_, hmodify (·.erase k)⟩
    rw [run, Member.call_map rfl rfl rfl]
    exact Run.bind_ok (display hk) _
  | clear =>
    cases hc
    refine ⟨.void, h.setMap a .empty, ?_, ?_⟩
    · rw [run, Member.call_map rfl rfl rfl]
      rfl
    · have hlt : a < h.maps.size := (Array.getElem?_eq_some_iff.mp hmap).1
      simp [Heap.setMap, Table.get?_set, hlt, MapChange.apply]

end MapWrite

/-! ## Histories -/

/-- The entries of a literal, evaluated in order: keys and values, each key by the text it has then. -/
inductive CollectionLiteral.Entered (ev : Evaluator) (f : Frame) :
    List (Node × Node) → Machine → List (String × Value) → Machine → Prop
  | nil (m : Machine) : Entered ev f [] m [] m
  | cons {k n rest m kv m₁ key v m₂ es m'} (hkey : ev f k m = .ok kv m₁) (htext : kv.text m₁.store.heap = some key)
    (hvalue : ev f n m₁ = .ok v m₂) (hrest : Entered ev f rest m₂ es m') : Entered ev f ((k, n) :: rest) m ((key, v) :: es) m'

/-- The writes to a map since its literal, with all else that leaves it as it is, and what they changed, the last first. -/
inductive MapHistory (host : Host) (a : Nat) : List MapChange → Heap → Prop
  | literal {ev f entries m es m₁ m'} (hentries : CollectionLiteral.Entered ev f entries m es m₁)
    (hbuild : CollectionLiteral.build ev (.map entries) f m = .ok (.map a) m') :
    MapHistory host a (es.map fun e => .put e.1 e.2).reverse m'.store.heap
  | write {log h w c r h'} (hlog : MapHistory host a log h) (hc : MapWrite.change? a h w = some c)
    (hrun : w.run host a h = .ok r h') : MapHistory host a (c :: log) h'
  | other {log h h'} (hlog : MapHistory host a log h) (hsame : h'.maps.get? a = h.maps.get? a) : MapHistory host a log h'

theorem CollectionLiteral.Entered.evalEntries {ev f entries m es m'} (h : Entered ev f entries m es m') (d : Dict Value)  :
    evalEntries ev f entries d m = .ok (es.foldl (fun d e => d.insert e.1 e.2) d) m' := by
  induction h generalizing d with
  | nil m => rfl
  | @cons k n rest m kv m₁ key v m₂ es m' hkey htext hvalue _ ih =>
    have hquery : (Run.query fun m => kv.key m.store.heap : EvalM String) m₁ = .ok key m₁ :=
      Run.query_eq_ok.mpr ⟨htext, rfl⟩
    rw [CollectionLiteral.evalEntries, Run.bind_ok hkey, Run.bind_ok hquery, Run.bind_ok hvalue, ih]
    rfl

theorem MapChange.Tells.foldl {log : List MapChange} {d : Dict Value} (h : Tells log d) (es : List (String × Value)) :
    Tells ((es.map fun e => .put e.1 e.2).reverse ++ log) (es.foldl (fun d e => d.insert e.1 e.2) d) := by
  induction es generalizing log d with
  | nil => exact h
  | cons e es ih =>
    have hrest := ih (h.apply (.put e.1 e.2))
    rwa [List.map_cons, List.reverse_cons, List.append_assoc]

namespace MapHistory

variable {host : Host} {a : Nat} {log : List MapChange} {h : Heap}

theorem exists_map (hlog : MapHistory host a log h) : ∃ d, h.maps.get? a = some d ∧ MapChange.Tells log d := by
  induction hlog with
  | @literal ev f entries m es m₁ m' hentries hbuild =>
    refine ⟨_, ?_, List.append_nil _ ▸ MapChange.Tells.empty.foldl es⟩
    obtain ⟨d, m₂, hd, halloc⟩ := Run.bind_eq_ok.mp hbuild
    cases hd.symm.trans (hentries.evalEntries .empty)
    cases halloc
    exact Array.getElem?_push_size
  | write _ hc hrun ih =>
    obtain ⟨d, hmap, htells⟩ := ih
    obtain ⟨r, h', hrun', hmap'⟩ := MapWrite.run_eq_ok hmap hc
    cases hrun.symm.trans hrun'
    exact ⟨_, hmap', htells.apply _⟩
  | other _ hsame ih =>
    obtain ⟨d, hmap, htells⟩ := ih
    exact ⟨d, hsame.trans hmap, htells⟩

end MapHistory

/-! ## Reading -/

namespace Member

variable {host : Host} {a : Nat} {nullSafe : Bool} {h : Heap}

theorem lookup_map {key : Value} {k : String} (hk : key.text h = some k) :
    let found := ((h.map a).get? k).getD .null
    let held := Value.bool ((h.map a).get? k).isSome
    readIndex (.map a) key nullSafe h = .ok found h ∧ call host (.map a) "get" [key] nullSafe h = .ok found h ∧
      readProperty host (.map a) k nullSafe h = .ok found h ∧
      call host (.map a) "containsKey" [key] nullSafe h = .ok held h ∧ Operator.apply .contains (.map a) key h = .ok held h := by
  intro found held
  have hdisplay : key.display h = .ok k h := Run.query_eq_ok.mpr ⟨hk, rfl⟩
  have hkey : (Run.query fun h => key.key h : HeapM String) h = .ok k h := hdisplay
  have hholds : (Run.query (Operator.holds · (.map a) key) : HeapM _) h = .ok (some ((h.map a).contains k)) h := by
    refine Run.query_eq_ok.mpr ⟨?_, rfl⟩
    rw [Operator.holds, hk]
    rfl
  refine ⟨Run.bind_ok hkey _, ?_, rfl, ?_, Run.bind_ok hholds _⟩
  · rw [call_map rfl rfl rfl]
    exact Run.bind_ok hdisplay _
  · rw [call_map rfl rfl rfl]
    exact Run.bind_ok hdisplay _

theorem list_newList (items : List Value) : ((h.newList items.toArray).2.list h.lists.size).toList = items := by
  simp [Heap.newList, Heap.list, Table.get?_alloc]

end Member

/-- A map after any writes. Its keys are distinct: those written and not removed since, in the order in which they came in.
The set of keys, the values, the items of a loop and the text of the map go in that order. To look up a value under its
text by an index, by a member, as a property or by an operator gives what was last written, and `null` and `false` if there
is nothing. Every write to it ends if its key has a text, which for an index must not show the map itself. -/
theorem MapHistory.insertion_ordered {host : Host} {a : Nat} {log : List MapChange} {h : Heap} (hlog : MapHistory host a log h)
    (nullSafe : Bool) :
    (∀ w c, MapWrite.change? a h w = some c → ∃ r h', w.run host a h = .ok r h' ∧ MapHistory host a (c :: log) h') ∧
    (∀ key v c, MapWrite.change? a h (.index key v) = some c → ∃ k, key.text h = some k ∧ c = .put k v) ∧
    ∃ keys : List String, keys.Nodup ∧ (∀ k, k ∈ keys ↔ (MapChange.last? k log).isSome = true) ∧
      keys.Pairwise (fun k k' => MapChange.since k log < MapChange.since k' log) ∧
      (∃ b h', Member.call host (.map a) "keySet" [] nullSafe h = .ok (.list b) h' ∧
        (h'.list b).toList = keys.map .str) ∧
      (∃ b h', Member.call host (.map a) "values" [] nullSafe h = .ok (.list b) h' ∧
        (h'.list b).toList = keys.map fun k => (MapChange.last? k log).getD .null) ∧
      (∀ ev (e : Eval.Each) m, m.store.heap = h → e.run ev (.map a) m = e.overItems ev (keys.map .str) m) ∧
      (Value.map a).text h = (do
        let parts ← keys.mapM fun k => do
          let shown ← Value.nestedText (Value.textWithin h h.size) ((MapChange.last? k log).getD .null)
          pure (Text.quoted k ++ ": " ++ shown)
        pure ("[" ++ (if parts.isEmpty then ":" else Value.commas parts) ++ "]")) ∧
      ∀ key k, Value.text h key = some k →
        let found := (MapChange.last? k log).getD .null
        let held := Value.bool (MapChange.last? k log).isSome
        Member.readIndex (.map a) key nullSafe h = .ok found h ∧
        Member.call host (.map a) "get" [key] nullSafe h = .ok found h ∧
        Member.readProperty host (.map a) k nullSafe h = .ok found h ∧
        Member.call host (.map a) "containsKey" [key] nullSafe h = .ok held h ∧
        Operator.apply .contains (.map a) key h = .ok held h := by
  obtain ⟨d, hmap, htells⟩ := hlog.exists_map
  have hd : h.map a = d := by rw [Heap.map, hmap, Option.getD_some]
  have hvalues : d.values = d.keys.map fun k => (MapChange.last? k log).getD .null := by
    rw [Dict.values, htells.entries_eq, List.map_map]
    rfl
  have hlisted : ∀ {name : String} {items : List Value},
      Member.call host (.map a) name [] nullSafe h = .ok (h.newList items.toArray).1 (h.newList items.toArray).2 →
      ∃ b h', Member.call host (.map a) name [] nullSafe h = .ok (.list b) h' ∧ (h'.list b).toList = items :=
    fun hcall => ⟨_, _, hcall, Member.list_newList _⟩
  refine ⟨fun w c hc => ?_, fun key v c hc => ?_, d.keys, d.nodup_keys, fun k => htells.mem_keys, htells.order,
    hlisted ?_, hlisted ?_, ?_, ?_, fun key k hk => ?_⟩
  · obtain ⟨r, h', hrun, -⟩ := MapWrite.run_eq_ok hmap hc
    exact ⟨r, h', hrun, .write hlog hc hrun⟩
  · obtain ⟨k, hk, rfl⟩ := Option.map_eq_some_iff.mp hc
    exact ⟨k, Value.key_of_holding (by rw [hmap]; rfl) hk (Heap.sameBut_of_modifyMap ..), rfl⟩
  · rw [Member.call_map rfl rfl rfl, ← hd]
    rfl
  · rw [Member.call_map rfl rfl rfl, ← hvalues, ← hd]
    rfl
  · rintro ev e m rfl
    rw [← hd]
    rfl
  · rw [Value.text, Value.textWithin, hd, htells.entries_eq, List.mapM_map]
    rfl
  · rw [← htells.get, ← hd]
    exact Member.lookup_map hk

/-- The number and the text `7` are one key, which keeps its place, and a key that comes back goes to the end. -/
theorem MapHistory.insertion_ordered_coming_back :
    let host := (Frame.nested .local).host
    let log : List MapChange :=
      [.put "b" (.int 4), .remove "b", .put "7" (.int 3), .put "7" (.int 2), .put "b" (.int 1)]
    ∃ h, MapHistory host 0 log h ∧ MapChange.since "7" log < MapChange.since "b" log ∧
      Member.readIndex (.map 0) (.int 7) false h = .ok (.int 3) h ∧
      Member.readProperty host (.map 0) "b" false h = .ok (.int 4) h := by
  intro host log
  let literal (v : Value) : Node := ⟨default, .literal v⟩
  let entries := [(literal (.str "b"), literal (.int 1)), (literal (.int 7), literal (.int 2))]
  have hentered : CollectionLiteral.Entered (Eval.node 0) (.nested .local) entries (.start 0)
      [("b", .int 1), ("7", .int 2)] (.start 0) := .cons rfl rfl rfl (.cons rfl rfl rfl (.nil _))
  obtain ⟨_, _, _, hindex⟩ := ((MapHistory.literal hentered rfl).insertion_ordered false).1 (.index (.str "7") (.int 3)) _ rfl
  obtain ⟨_, _, _, hremove⟩ := (hindex.insertion_ordered false).1 (.remove (.str "b")) _ rfl
  obtain ⟨_, h, _, hlog⟩ := (hremove.insertion_ordered false).1 (.property "b" (.int 4)) _ rfl
  obtain ⟨-, -, keys, -, -, -, -, -, -, -, hread⟩ := hlog.insertion_ordered false
  exact ⟨h, hlog, by decide, (hread (.int 7) "7" rfl).1, (hread (.str "b") "b" rfl).2.2.1⟩

end PathScript
