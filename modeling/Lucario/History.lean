import Lucario.System

namespace Lucario

/-! The rows of `monitorHistory` as buffers of characters; `Monitor` only has the strings in
them. -/

/-- `strncpy` of a C string, which fills up with nulls. -/
def strncpy (count : Nat) (source : List Char) (target : Nat → Char) : Nat → Char :=
  fun j => if j < count then source.getD j '\x00' else target j

/-- `strcpy` from one buffer to another: everything up to the first null, and the null. -/
def strcpy (source target : Nat → Char) : Nat → Char :=
  fun j => if ∀ k < j, source k ≠ '\x00' then source j else target j

/-- `monitorHistory` and `historyCount`. -/
structure Rows where
  monitorHistory : Nat → Nat → Char
  historyCount : Nat

/-- `strncpy` into a row, and the null at its end. -/
def Rows.store (i : Nat) (message : List Char) (r : Rows) : Rows :=
  { r with
    monitorHistory := Function.update r.monitorHistory i
      (Function.update (strncpy (maxLineLength - 1) message (r.monitorHistory i))
        (maxLineLength - 1) '\x00') }

/-- The `strcpy` loop that drops the oldest of `count` rows. -/
def Rows.shift (count : Nat) (r : Rows) : Rows :=
  { r with
    monitorHistory := (List.range' 1 (count - 1)).foldl
      (fun rows i => Function.update rows (i - 1) (strcpy (rows i) (rows (i - 1))))
      r.monitorHistory }

/-- `monitorSaveHistory`, on the buffers. -/
def Rows.monitorSaveHistory (r : Rows) (message : List Char) : Rows :=
  if r.historyCount < maxHistoryLines then
    { r.store r.historyCount message with historyCount := r.historyCount + 1 }
  else (r.shift maxHistoryLines).store (maxHistoryLines - 1) message

end Lucario
