import PathScript.Document.Json
import PathScript.Machine

/-! # Settings

A configuration can be given by settings: names with words or numbers. What is
not set keeps its standard value, names that mean nothing are passed over, and
a setting that its name does not allow makes the whole configuration invalid. -/

namespace PathScript

inductive Setting where
  | word (w : String)
  | number (n : Int)
  /-- Anything else. -/
  | other
deriving DecidableEq, Inhabited

namespace Setting

/-- The setting that a document gives. A word can also be the only key of a map. -/
def ofDocument : Document → Setting
  | .str s => word s
  | .int n => number n
  | .map [(w, .null)] => word w
  | _ => other

def document : Setting → Document
  | word w => .str w
  | number n => .int n
  | other => .null

def nat? (limit : Nat) : Setting → Option Nat
  | number n => if 0 ≤ n ∧ n < limit then some n.toNat else none
  | _ => none

end Setting

namespace OptimizerMode

def name : OptimizerMode → String
  | safe => "safe"
  | specializing => "specializing"
  | dynamic => "dynamic"

def ofSetting? : Setting → Option OptimizerMode
  | .word w => [safe, specializing, dynamic].find? (·.name == w)
  | _ => none

end OptimizerMode

namespace BlockScoping

def name : BlockScoping → String
  | .local => "local"
  | .promote => "promote"

def ofSetting? : Setting → Option BlockScoping
  | .word w => [BlockScoping.local, .promote].find? (·.name == w)
  | _ => none

end BlockScoping

namespace Config

def settingNames : List String :=
  ["optimizer", "tenuring_threshold", "time_span_ms", "tenure_ceiling", "block_scoping", "max_call_depth",
    "cache_capacity"]

def withSetting? (c : Config) (name : String) (s : Setting) : Option Config :=
  match name with
  | "optimizer" => (OptimizerMode.ofSetting? s).map fun m => { c with optimizer := m }
  | "tenuring_threshold" => (s.nat? UInt32.size).map fun n => { c with tenuringThreshold := n }
  | "time_span_ms" => (s.nat? UInt64.size).map fun n => { c with timeSpan := n }
  | "tenure_ceiling" => (s.nat? UInt64.size).map fun n => { c with tenureCeiling := n }
  | "block_scoping" => (BlockScoping.ofSetting? s).map fun b => { c with blockScoping := b }
  | "max_call_depth" => (s.nat? UInt64.size).map fun n => { c with maxCallDepth := n }
  | "cache_capacity" => (s.nat? UInt64.size).map fun n => { c with cacheCapacity := n }
  | _ => some c

def ofSettings? (settings : List (String × Setting)) : Option Config :=
  settings.foldlM (fun c s => c.withSetting? s.1 s.2) standard

def settings (c : Config) : List (String × Setting) :=
  [("optimizer", .word c.optimizer.name),
    ("tenuring_threshold", .number c.tenuringThreshold),
    ("time_span_ms", .number c.timeSpan),
    ("tenure_ceiling", .number c.tenureCeiling),
    ("block_scoping", .word c.blockScoping.name),
    ("max_call_depth", .number c.maxCallDepth),
    ("cache_capacity", .number c.cacheCapacity)]

/-- The configuration that a document gives: settings by name, or in their order. -/
def ofDocument? : Document → Option Config
  | .map es => ofSettings? (es.map fun e => (e.1, .ofDocument e.2))
  | .list ds =>
    if ds.length ≤ settingNames.length then ofSettings? (settingNames.zip (ds.map .ofDocument)) else none
  | _ => none

def document (c : Config) : Document := .map (c.settings.map fun s => (s.1, s.2.document))

end Config

end PathScript
