/-
What an analysis reports while it works.

* `Severity`, `Event` — the events and how much they matter,
* `Event.message` — an event in words,
* `Log` — the events in the order they happened.
-/

namespace KernelIntervals

/-- How much an event matters. -/
inductive Severity
  | trace
  | debug
  | info
deriving DecidableEq

/-- Something that happened during an analysis. Blocks are known by name,
intervals by number. -/
inductive Event
  | guarded (control block : String)
  | carved (abstractBlocks basicBlocks controlling : Nat)
  | opened (block : String) (interval : Nat)
  | joined (block : String) (interval liveIn : Nat)
  | renamed (old new : String)
  | split (block : String) (place headRegs : Nat) (tail : String) (tailRegs : Nat)
  | folded (interval coarse regs : Nat)
  | blocksGrouped (blocks fragments intervals : Nat)
  | intervalsGrouped (before after : Nat) (scope : String)
  | iterated (iteration before after : Nat)
deriving DecidableEq

namespace Event

def severity : Event → Severity
  | guarded .. | opened .. | joined .. | renamed .. | split .. | folded .. => .trace
  | carved .. | blocksGrouped .. | intervalsGrouped .. => .debug
  | iterated .. => .info

def message : Event → String
  | guarded control block => control ++ " guards the branch at the end of " ++ block
  | carved abstractBlocks basicBlocks controlling =>
    abstractBlocks.repr ++ " abstract blocks into " ++ basicBlocks.repr
      ++ " basic blocks and " ++ controlling.repr ++ " controlling blocks"
  | opened block interval => block ++ " opens interval #" ++ interval.repr
  | joined block interval liveIn =>
    block ++ " joins interval #" ++ interval.repr ++ " with " ++ liveIn.repr
      ++ " live-in registers"
  | renamed old new => "renamed branch targets " ++ old ++ " -> " ++ new
  | split block place headRegs tail tailRegs =>
    "split " ++ block ++ " at instruction " ++ place.repr ++ ": " ++ headRegs.repr
      ++ " registers stay, " ++ tail ++ " takes " ++ tailRegs.repr
  | folded interval coarse regs =>
    "interval #" ++ interval.repr ++ " folds into #" ++ coarse.repr ++ " (" ++ regs.repr
      ++ " registers)"
  | blocksGrouped blocks fragments intervals =>
    "pass one: " ++ blocks.repr ++ " blocks (" ++ fragments.repr ++ " from splits) into "
      ++ intervals.repr ++ " intervals"
  | intervalsGrouped before after scope =>
    "pass two: " ++ before.repr ++ " intervals into " ++ after.repr ++ " (" ++ scope
      ++ " union)"
  | iterated iteration before after =>
    "iteration " ++ iteration.repr ++ ": " ++ before.repr ++ " -> " ++ after.repr
      ++ " intervals"

end Event

/-- The events in the order they happened. -/
abbrev Log := Array Event

end KernelIntervals
