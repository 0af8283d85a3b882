import Mathlib.Logic.Function.Basic

/-!
# Last writer

What a list of writes `(key, value)` leaves at a key is the value of the last write that named it.
-/

namespace LastWrite

variable {κ β : Type*} [DecidableEq κ]

/-- The value of the last write to `k`. -/
def last (ws : List (κ × β)) (k : κ) : Option β :=
  (ws.reverse.find? (fun w => w.1 = k)).map Prod.snd

@[simp] theorem last_nil (k : κ) : last ([] : List (κ × β)) k = none := rfl

theorem last_append_singleton (ws : List (κ × β)) (w : κ × β) (k : κ) :
    last (ws ++ [w]) k = if w.1 = k then some w.2 else last ws k := by
  simp only [last, List.reverse_append, List.reverse_singleton, List.singleton_append,
    List.find?_cons]
  split <;> simp_all

end LastWrite
