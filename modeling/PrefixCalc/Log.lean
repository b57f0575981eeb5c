import PrefixCalc.Operator

/-! Computations that keep a record of what they did. The record is a list of events in the
order in which they happened; a level and a message are read off an event. -/
namespace PrefixCalc

/-- Least detailed level first. -/
inductive Level where
  | info | debug | trace
  deriving DecidableEq, Repr

inductive Event where
  /-- A token was taken in and left this many finished expressions. -/
  | accepted (token : String) (depth : Nat)
  /-- A token did not fit in where this many finished expressions were waiting. -/
  | rejected (token : String) (depth : Nat)
  | built (text : String)
  | zeroDivisor (left : Int32)
  | overflowed (op : BinaryOp) (left right : Int32)
  | replaced (text : String)
  | kept (malformed : String)
  deriving DecidableEq, Repr

namespace Event

def level : Event → Level
  | accepted .. | zeroDivisor .. | overflowed .. => .trace
  | rejected .. | built .. | replaced .. => .debug
  | kept .. => .info

def message : Event → String
  | accepted token depth => s!"Accepted token '{token}', stack depth {depth}"
  | rejected token depth => s!"Rejected token '{token}' at stack depth {depth}"
  | built text => s!"Built expression {text}"
  | zeroDivisor left => s!"Division of {left.toInt} by zero"
  | overflowed op left right => s!"{left.toInt} {op.token} {right.toInt} overflows"
  | replaced text => s!"Replacing expression with {text}"
  | kept malformed => s!"Keeping previous expression, '{malformed}' is malformed"

end Event

/-- A result together with the events on the way to it. -/
structure Logged (α : Type) where
  value : α
  events : List Event
  deriving Repr

namespace Logged

variable {α β : Type}

@[ext] theorem ext {x y : Logged α} (hv : x.value = y.value) (he : x.events = y.events) : x = y := by
  cases x; cases y; simp_all

instance : Monad Logged where
  pure a := ⟨a, []⟩
  bind x f :=
    let y := f x.value
    ⟨y.value, x.events ++ y.events⟩

@[simp] theorem value_pure (a : α) : (pure a : Logged α).value = a := rfl
@[simp] theorem events_pure (a : α) : (pure a : Logged α).events = [] := rfl

@[simp] theorem value_bind (x : Logged α) (f : α → Logged β) :
    (x >>= f).value = (f x.value).value := rfl

@[simp] theorem events_bind (x : Logged α) (f : α → Logged β) :
    (x >>= f).events = x.events ++ (f x.value).events := rfl

@[simp] theorem value_map (f : α → β) (x : Logged α) : (f <$> x).value = f x.value := rfl

@[simp] theorem events_map (f : α → β) (x : Logged α) : (f <$> x).events = x.events :=
  List.append_nil x.events

instance : LawfulMonad Logged :=
  LawfulMonad.mk' Logged
    (fun x => Logged.ext rfl (List.append_nil _))
    (fun _ _ => rfl)
    (fun _ _ _ => Logged.ext rfl (List.append_assoc ..))

/-- Records one event. -/
def emit (event : Event) : Logged Unit := ⟨(), [event]⟩

@[simp] theorem events_emit (event : Event) : (emit event).events = [event] := rfl

end Logged
end PrefixCalc
