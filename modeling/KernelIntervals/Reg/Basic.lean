/-
General purpose registers.

* `Reg` — a register, known by its number, which has 32 bits,
* `Reg.name` — its spelling, `R` and the number,
* `Reg.parse` — the register with a given spelling,
* `Reg.parse_name` — reading a written name gives the register back.

Design notes: the spelling may have leading zeros, so several texts can name
one register; only `Reg.name` writes the canonical one.
-/

namespace KernelIntervals

/-- A general purpose register. -/
@[ext] structure Reg where
  num : Nat
  num_lt : num < UInt32.size := by decide
deriving DecidableEq

/-- A text that looks like a register but names none. -/
structure RegError where
  text : String
deriving DecidableEq

namespace RegError

def message (e : RegError) : String :=
  "invalid register name `" ++ e.text ++ "`"

end RegError

namespace Reg

instance : LT Reg := ⟨fun a b => a.num < b.num⟩

instance (a b : Reg) : Decidable (a < b) := inferInstanceAs (Decidable (a.num < b.num))

theorem lt_iff {a b : Reg} : a < b ↔ a.num < b.num := Iff.rfl

theorem lt_trans {a b c : Reg} (hab : a < b) (hbc : b < c) : a < c := Nat.lt_trans hab hbc

theorem lt_irrefl (a : Reg) : ¬ a < a := Nat.lt_irrefl a.num

theorem lt_of_not_lt_of_ne {a b : Reg} (h : ¬ a < b) (hne : a ≠ b) : b < a := by
  have hn : a.num ≠ b.num := fun he => hne (Reg.ext he)
  rw [lt_iff] at h ⊢
  omega

/-- The spelling of a register. -/
def name (r : Reg) : String :=
  "R" ++ r.num.repr

/-- Whether a text is `R` followed by one or more ASCII digits. -/
def isSpelling : List Char → Bool
  | 'R' :: digits => !digits.isEmpty && digits.all Char.isDigit
  | _ => false

/-- The register that a text spells, if its number has 32 bits. -/
def ofChars? (text : List Char) : Option Reg :=
  if isSpelling text then
    let num := Nat.ofDigitChars 10 text.tail 0
    if h : num < UInt32.size then some ⟨num, h⟩ else none
  else none

/-- The register with a given spelling. -/
def parse (text : String) : Except RegError Reg :=
  match ofChars? text.toList with
  | some r => .ok r
  | none => .error ⟨text⟩

theorem isSpelling_name (r : Reg) : isSpelling r.name.toList := by
  simp only [name, String.toList_append, Nat.toList_repr]
  rw [show "R".toList = ['R'] from rfl]
  simp only [List.singleton_append, isSpelling, Bool.and_eq_true, List.all_eq_true]
  exact ⟨by simp, fun c hc => Nat.isDigit_of_mem_toDigits (by decide) (by decide) hc⟩

theorem ofChars?_name (r : Reg) : ofChars? r.name.toList = some r := by
  have htail : r.name.toList.tail = Nat.toDigits 10 r.num := by
    simp only [name, String.toList_append, Nat.toList_repr]
    rw [show "R".toList = ['R'] from rfl]
    rfl
  rw [ofChars?, if_pos (isSpelling_name r), htail]
  simp only [Nat.ofDigitChars_toDigits (show 1 < 10 by decide) (Nat.le_refl 10)]
  exact dif_pos r.num_lt

theorem parse_name (r : Reg) : parse r.name = .ok r := by
  rw [parse, ofChars?_name]

end Reg

end KernelIntervals
