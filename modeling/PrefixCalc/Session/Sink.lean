import PrefixCalc.Fault
import PrefixCalc.Log

/-! Writing to a sink that may take only so much. What a computation writes goes out piece by piece.
The first piece that is not taken whole interrupts the computation; the part of it that was taken
stays taken. -/
namespace PrefixCalc

/-- A sink takes at most `room` bytes, if there is such a bound. -/
structure Sink where
  room : Option Nat
  flushFails : Bool
  deriving DecidableEq, Repr

namespace Sink

def unlimited : Sink := ⟨none, false⟩

/-- How many of so many bytes are taken at once. -/
def fit (sink : Sink) (length : Nat) : Nat :=
  match sink.room with
  | none => length
  | some room => min length room

/-- The sink after it took so many bytes. -/
def after (sink : Sink) (taken : Nat) : Sink := { sink with room := sink.room.map (· - taken) }

end Sink

/-- Why a run came to an early end. -/
inductive Interruption where
  | unreadable (cause : String)
  | aborted (failure : Failure)
  | sinkFull
  | sinkClosed
  deriving DecidableEq, Repr

namespace Interruption

def notText : Interruption := unreadable "stream did not contain valid UTF-8"

/-- The messages from the outermost to the cause. -/
def chain : Interruption → List String
  | unreadable cause => ["could not read command", cause]
  | aborted failure => failure.chain
  | sinkFull => ["failed to write whole buffer"]
  | sinkClosed => ["could not flush output", "sink closed"]

end Interruption

/-- What was taken of the bytes that a computation wrote, and its value with the sink after it
unless it was interrupted. -/
structure Delivery (α : Type) where
  taken : List UInt8
  result : Except Interruption (α × Sink)

/-- A computation that records events and writes to a sink. -/
@[ext] structure Writing (α : Type) where
  run : Sink → Logged (Delivery α)

namespace Writing

variable {α β : Type}

instance : Monad Writing where
  pure a := ⟨fun sink => pure ⟨[], .ok (a, sink)⟩⟩
  bind x f := ⟨fun sink => do
    let first ← x.run sink
    match first.result with
    | .error cause => return ⟨first.taken, .error cause⟩
    | .ok (a, sink) =>
      let second ← (f a).run sink
      return ⟨first.taken ++ second.taken, second.result⟩⟩

instance : MonadLift Logged Writing where
  monadLift x := ⟨fun sink => do
    let a ← x
    return ⟨[], .ok (a, sink)⟩⟩

def interrupt (cause : Interruption) : Writing α := ⟨fun _ => pure ⟨[], .error cause⟩⟩

/-- Offers a buffer to the sink once. The value is the number of bytes that were taken. -/
def write (buffer : List UInt8) : Writing Nat := ⟨fun sink =>
  let n := sink.fit buffer.length
  pure ⟨buffer.take n, .ok (n, sink.after n)⟩⟩

/-- Offers again what was not taken, until nothing is left or nothing is taken. -/
def writeAll (buffer : List UInt8) : Writing Unit :=
  if buffer = [] then pure ()
  else do
    let n ← write buffer
    if n = 0 then interrupt .sinkFull else writeAll (buffer.drop n)
termination_by buffer.length
decreasing_by
  have : 0 < buffer.length := List.length_pos_iff.2 ‹_›
  rw [List.length_drop]
  omega

def flush : Writing Unit := ⟨fun sink =>
  pure ⟨[], if sink.flushFails then .error .sinkClosed else .ok ((), sink)⟩⟩

theorem run_pure (a : α) (sink : Sink) :
    (pure a : Writing α).run sink = pure ⟨[], .ok (a, sink)⟩ := rfl

theorem run_bind_of_error {x : Writing α} {sink : Sink} {taken : List UInt8}
    {cause : Interruption} {events : List Event}
    (h : x.run sink = ⟨⟨taken, .error cause⟩, events⟩) (f : α → Writing β) :
    (x >>= f).run sink = ⟨⟨taken, .error cause⟩, events⟩ := by
  refine Logged.ext ?_ ?_ <;> simp [bind, h]

theorem run_bind_of_ok {x : Writing α} {sink sink' : Sink} {taken : List UInt8} {a : α}
    {events : List Event} (h : x.run sink = ⟨⟨taken, .ok (a, sink')⟩, events⟩)
    (f : α → Writing β) :
    (x >>= f).run sink =
      ⟨⟨taken ++ ((f a).run sink').value.taken, ((f a).run sink').value.result⟩,
        events ++ ((f a).run sink').events⟩ := by
  refine Logged.ext ?_ ?_ <;> simp [bind, h]

theorem run_bind_pure (a : α) (f : α → Writing β) : (pure a >>= f).run = (f a).run := by
  funext sink
  exact run_bind_of_ok (run_pure a sink) f

theorem run_bind_bind {γ : Type} (x : Writing α) (f : α → Writing β) (g : β → Writing γ) :
    (x >>= f >>= g).run = (x >>= fun a => f a >>= g).run := by
  funext sink
  rcases hx : x.run sink with ⟨⟨taken, cause | ⟨a, sink'⟩⟩, events⟩
  · rw [run_bind_of_error hx, run_bind_of_error (run_bind_of_error hx f)]
  · have hxf := run_bind_of_ok hx f
    rw [run_bind_of_ok hx]
    rcases hf : (f a).run sink' with ⟨⟨more, cause | ⟨b, sink''⟩⟩, events'⟩
    · rw [hf] at hxf
      rw [run_bind_of_error hxf, run_bind_of_error hf]
    · rw [hf] at hxf
      rw [run_bind_of_ok hxf, run_bind_of_ok hf]
      simp only [List.append_assoc]

theorem run_id_map (x : Writing α) : (id <$> x).run = x.run := by
  funext sink
  rcases hx : x.run sink with ⟨⟨taken, cause | ⟨a, sink'⟩⟩, events⟩
  · exact run_bind_of_error hx _
  · refine (run_bind_of_ok hx _).trans (Logged.ext ?_ ?_) <;> simp [pure]

instance : LawfulMonad Writing :=
  LawfulMonad.mk' Writing
    (fun x => Writing.ext (run_id_map x))
    (fun a f => Writing.ext (run_bind_pure a f))
    (fun x f g => Writing.ext (run_bind_bind x f g))

instance : LawfulMonadLift Logged Writing where
  monadLift_pure _ := rfl
  monadLift_bind x f := by
    ext sink : 2
    refine Eq.trans ?_ (run_bind_of_ok rfl _).symm
    exact Logged.ext rfl (by simp [MonadLift.monadLift])

end Writing
end PrefixCalc
