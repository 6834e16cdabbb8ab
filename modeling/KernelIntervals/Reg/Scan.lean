/-
Registers in running text.

* `Reg.scan` — the registers that a text mentions, in order,
* `Reg.scan?` — the same, or the first mention that names no register.

Design notes: a mention is a whole word, so `RZ`, `UR4` and `SR_TID` mention
nothing.
-/
import KernelIntervals.Text.Word
import KernelIntervals.Reg.Basic

namespace KernelIntervals.Reg

open Text

/-- One result for every word of the text that is spelled like a register. -/
def scan (text : List Char) : List (Except RegError Reg) :=
  (words text).filter isSpelling |>.map fun word => parse (String.ofList word)

/-- The registers that a text mentions, or the first mention that names none. -/
def scan? (text : List Char) : Except RegError (List Reg) :=
  (scan text).mapM id

end KernelIntervals.Reg
