import ThreeAddress.Eval.Limits
import ThreeAddress.Exchange.Program

/-!
# Limits as JSON

Any limit that is not given is the standard one.
-/

namespace ThreeAddress

def Json.uint64? (value : Json) : Option Nat :=
  (value.int? 0 18446744073709551615).map Int.toNat

namespace Limits

def toJson (limits : Limits) : Json :=
  .ofRecord [("max_call_depth", .ofInt limits.maxDepth),
    ("max_steps", (limits.maxSteps.map fun steps => Json.ofInt steps.toNat).getD .null),
    ("max_heap_slots", .ofInt limits.maxHeapSlots)]

def ofJson? (value : Json) : Option Limits := do
  match ← value.record? ["max_call_depth", "max_steps", "max_heap_slots"] 0 with
  | [depth, steps, slots] =>
      return {
        maxDepth := ← (depth.map Json.uint64?).getD (some standard.maxDepth)
        maxSteps := ← (steps.map (Json.option? fun value => value.uint64?.map UInt64.ofNat)).getD
          (some standard.maxSteps)
        maxHeapSlots := ← (slots.map Json.uint64?).getD (some standard.maxHeapSlots) }
  | _ => none

def ofText? (text : String) : Option Limits :=
  (Json.ofChars? (text.toList.map some)).bind ofJson?

end Limits

end ThreeAddress
