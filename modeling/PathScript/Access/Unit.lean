import PathScript.Ast
import PathScript.Member

/-! # Unit registries

Units are kept under the text of a path and the type its root had. When one
more would exceed the ceiling, all of them are dropped and a new generation
starts; a unit that was handed out under an older generation is stale. -/

namespace PathScript

structure UnitKey where
  path : String
  declaringType : String
deriving DecidableEq, Inhabited

namespace UnitKey

def text (k : UnitKey) : String := k.path ++ "@" ++ k.declaringType

/-- The key with that text: the type stands behind the last at sign, and is empty if there is none. -/
def ofText (s : String) : UnitKey :=
  let back := s.toList.reverse
  match back.dropWhile (· != '@') with
  | [] => ⟨s, ""⟩
  | _ :: path => ⟨String.ofList path.reverse, String.ofList (back.takeWhile (· != '@')).reverse⟩

end UnitKey

/-- Units of some kind, and counts of what has happened to them. -/
structure UnitRegistry (U : Type) where
  units : List (UnitKey × U)
  ceiling : Nat
  generation : Nat
  installed : Nat
  reused : Nat
  evictions : Nat
deriving Inhabited

inductive Registration (U : Type) where
  /-- The unit was stored. -/
  | installed (unit : U) (generation : Nat)
  /-- The key had a unit already, and that one is returned. -/
  | existing (unit : U) (generation : Nat)
  /-- The ceiling was exceeded; all units were dropped, and the new one with them. -/
  | evicted (generation : Nat)
deriving Inhabited

structure RegistryStats where
  live : Nat
  installed : Nat
  reused : Nat
  evictions : Nat
  generation : Nat
  ceiling : Nat
deriving DecidableEq, Inhabited

namespace UnitRegistry

variable {U : Type}

def new (ceiling : Nat) : UnitRegistry U := ⟨[], ceiling, 0, 0, 0, 0⟩

def live (r : UnitRegistry U) : Nat := r.units.length

def find? (r : UnitRegistry U) (k : UnitKey) : Option U := (r.units.find? (·.1 == k)).map (·.2)

/-- The unit under a key and the generation it belongs to; finding one counts as a reuse. -/
def lookup (r : UnitRegistry U) (k : UnitKey) : Option (U × Nat) × UnitRegistry U :=
  match r.find? k with
  | some u => (some (u, r.generation), { r with reused := r.reused + 1 })
  | none => (none, r)

def evictAll (r : UnitRegistry U) : Nat × UnitRegistry U :=
  (r.live, { r with units := [], generation := r.generation + 1, evictions := r.evictions + 1 })

/-- Stores a unit, unless its key has one or the ceiling would be exceeded. -/
def register (r : UnitRegistry U) (k : UnitKey) (u : U) : Registration U × UnitRegistry U :=
  match r.find? k with
  | some found => (.existing found r.generation, { r with reused := r.reused + 1 })
  | none =>
    if r.ceiling < r.live + 1 then
      let r := r.evictAll.2
      (.evicted r.generation, r)
    else (.installed u r.generation, { r with units := (k, u) :: r.units, installed := r.installed + 1 })

/-- The unit under a key, or else a new one that is stored there, with its generation. There is none if storing it
dropped all of them. -/
def provide (r : UnitRegistry U) (k : UnitKey) (new : Unit → U) : Option (U × Nat) × UnitRegistry U :=
  match r.lookup k with
  | (some found, r) => (some found, r)
  | (none, r) =>
    match r.register k (new ()) with
    | (.installed u g, r) => (some (u, g), r)
    | (.existing u g, r) => (some (u, g), r)
    | (.evicted _, r) => (none, r)

def setCeiling (r : UnitRegistry U) (n : Nat) : UnitRegistry U := { r with ceiling := n }

def stats (r : UnitRegistry U) : RegistryStats :=
  ⟨r.live, r.installed, r.reused, r.evictions, r.generation, r.ceiling⟩

end UnitRegistry

/-! # Specialised units

A walk along a path notes, for every step, the value it started from and the
types of the arguments. From these notes a unit is made: per step a guard on
the receiver and the member that the guard makes sure of. Where nothing can be
prepared, the step is left general. -/

structure Observed where
  receiver : Value
  args : List Ty
deriving Inhabited

/-- A test of the receiver of a step. -/
inductive Guard where
  | instanceOf (c : ClassRef)
  | cls (c : ClassRef)
  | kind (k : Value.Kind)
deriving DecidableEq, Inhabited

namespace Guard

/-- The test that a value and its like pass. -/
def of? : Value → Option Guard
  | .null | .void => none
  | .object c _ => some (instanceOf c)
  | .cls c => some (cls c)
  | v => some (kind v.kind)

def holds : Guard → Value → Bool
  | instanceOf c, .object d _ => c == d
  | cls c, .cls d => c == d
  | kind k, v => k == v.kind
  | _, _ => false

end Guard

/-- How a property is read when the receiver is known. -/
inductive PropertyRead where
  | entry (name : String)
  | field (index : Nat)
  | getter (method : MethodDef)
  | constant (value : Value)
  | length

inductive UnitStep where
  /-- Nothing is prepared. -/
  | general
  | this
  | property (guard : Guard) (read : PropertyRead)
  | index (guard : Guard)
  /-- A method chosen for arguments of these types. -/
  | method (guard : Guard) (chosen : Resolved MethodDef) (types : List Ty)

structure SpecializedUnit where
  key : UnitKey
  steps : List UnitStep
  /-- The type of what the walk ended with. -/
  egress : Ty

/-- How a property of a value is read. -/
def PropertyRead.of? (classes : ClassTable) (receiver : Value) (name : String) : Option PropertyRead :=
  let byGetter := ((classes.classOf? receiver).bind (·.getter? name)).map getter
  match receiver with
  | .map _ => some (entry name)
  | .object c _ =>
    match (classes.definition c).fieldIndex? name with
    | some i => some (field i)
    | none => byGetter
  | .cls c => ((classes.definition c).static? name).map constant
  | .array _ => if Member.isLengthName name then some length else byGetter
  | _ => byGetter

/-- The prepared form of a step, from what a walk met there. -/
def UnitStep.of (classes : ClassTable) (segment : Segment) (seen : Observed) : UnitStep :=
  match segment with
  | .this => this
  | .root _ | .base _ => general
  | .property name _ =>
    match Guard.of? seen.receiver, PropertyRead.of? classes seen.receiver name with
    | some guard, some read => property guard read
    | _, _ => general
  | .index _ _ =>
    match seen.receiver with
    | .list _ | .array _ | .map _ => index (.kind seen.receiver.kind)
    | _ => general
  | .method name _ _ =>
    match Guard.of? seen.receiver, Member.resolve? classes seen.receiver name seen.args with
    | some guard, some chosen => method guard chosen seen.args
    | _, _ => general

def UnitStep.ofPath (classes : ClassTable) : List Segment → List Observed → List UnitStep
  | [], _ => []
  | _ :: rest, [] => general :: ofPath classes rest []
  | s :: rest, o :: seen => .of classes s o :: ofPath classes rest seen

namespace SpecializedUnit

/-- The key of what a walk met: the type of the root is that of the value the second step started from. -/
def keyOf (path : Path) (met : List Observed) (result : Value) : UnitKey :=
  ⟨path.text, ((met[1]?.map (·.receiver)).getD result).typeOf.name⟩

def generate (classes : ClassTable) (key : UnitKey) (path : Path) (met : List Observed) (result : Value) :
    SpecializedUnit :=
  ⟨key, UnitStep.ofPath classes path.segments met, result.typeOf⟩

end SpecializedUnit

end PathScript
