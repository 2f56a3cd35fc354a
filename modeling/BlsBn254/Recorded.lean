/-!
# Computations with a record

A computation may put down events on the way to its value (`Recorded`). What a
computation puts down comes after what was put down before it, and never changes
a value: the value of a sequence is that of its last part on the values of the
others (`Recorded.value_bind`), and its events are those of the parts, one after
the other (`Recorded.events_bind`).
-/

namespace BlsBn254

/-- A value with the events on the way to it. -/
structure Recorded (ε α : Type) where
  /-- The value. -/
  value : α
  /-- The events, in order. -/
  events : List ε

namespace Recorded

variable {ε α β : Type}

/-- The result of a computation that goes on from a recorded value. -/
def bind (x : Recorded ε α) (f : α → Recorded ε β) : Recorded ε β :=
  let y := f x.value
  ⟨y.value, x.events ++ y.events⟩

instance : Monad (Recorded ε) where
  pure a := ⟨a, []⟩
  bind := bind

/-- Puts an event down. -/
def report (e : ε) : Recorded ε Unit := ⟨(), [e]⟩

@[simp]
theorem value_pure (a : α) : (pure a : Recorded ε α).value = a := rfl

@[simp]
theorem value_bind (x : Recorded ε α) (f : α → Recorded ε β) :
    (x >>= f).value = (f x.value).value := rfl

@[simp]
theorem events_bind (x : Recorded ε α) (f : α → Recorded ε β) :
    (x >>= f).events = x.events ++ (f x.value).events := rfl

/-- All events have a property if those of each part have it. -/
theorem forall_events_bind {P : ε → Prop} {x : Recorded ε α} {f : α → Recorded ε β} :
    (∀ e ∈ (x >>= f).events, P e) ↔ (∀ e ∈ x.events, P e) ∧ ∀ e ∈ (f x.value).events, P e :=
  List.forall_mem_append

end Recorded

end BlsBn254
