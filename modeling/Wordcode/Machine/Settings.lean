import Wordcode.Machine.Limits
import Wordcode.Yaml.Count

/-!
Limits read from a settings text. The text names the limits it changes; a name that is unknown or
given twice is refused.
-/

namespace Wordcode.Limits

def knownNames : List String := ["stack_capacity", "max_call_depth"]

def ofEntries? (entries : List (String × Nat)) : Option Limits :=
  if entries.all (knownNames.contains ·.1) && (entries.map (·.1)).Nodup then
    let standard : Limits := {}
    some {
      stackCapacity := (entries.lookup "stack_capacity").getD standard.stackCapacity
      maxCallDepth := (entries.lookup "max_call_depth").getD standard.maxCallDepth }
  else none

def ofYaml (text : String) : Except LimitsError Limits :=
  match (Yaml.counts? text).bind ofEntries? with
  | some limits => limits.validate
  | none => .error .unreadable

end Wordcode.Limits
