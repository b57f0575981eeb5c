import PrefixCalc.Expr.Basic
import PrefixCalc.Log
import PrefixCalc.Token

/-! A stack of finished expressions that takes tokens one by one, operands before their operator.
A token that does not fit leaves the stack as it is and blocks the reducer until it is emptied. -/
namespace PrefixCalc

/-- The newest expression comes first. -/
structure Reducer where
  stack : List Expr
  failed : Bool
  deriving DecidableEq, Repr

namespace Reducer

def empty : Reducer := ⟨[], false⟩

def depth (r : Reducer) : Nat := r.stack.length

/-- The newest expression and those below it. -/
def pop : List Expr → Option Expr × List Expr
  | [] => (none, [])
  | e :: rest => (some e, rest)

/-- Whether the stack had enough for the token, and the stack afterwards. A binary operator takes
the newest expression as its left operand. -/
def attach : Token → List Expr → Bool × List Expr
  | .operand v, stack => (true, .operand v :: stack)
  | .operator .negate, stack =>
    match pop stack with
    | (some x, rest) => (true, .negate x :: rest)
    | (none, rest) => (false, rest)
  | .operator (.binary op), stack =>
    if stack.length < 2 then (false, stack)
    else
      let (left, below) := pop stack
      let (right, rest) := pop below
      match left, right with
      | some l, some r => (true, .binary op l r :: rest)
      | _, _ => (false, rest)

def reduce (token : String) (stack : List Expr) : Bool × List Expr :=
  match Token.kind? token with
  | none => (false, stack)
  | some kind =>
    match Token.build kind token with
    | none => (false, stack)
    | some t => attach t stack

/-- Whether the token was accepted, and the reducer after it. Only the first token that does not
fit is recorded. -/
def process (r : Reducer) (token : String) : Logged (Bool × Reducer) :=
  if r.failed then return (false, r)
  else
    match reduce token r.stack with
    | (true, stack) => do
      Logged.emit (.accepted token stack.length)
      return (true, ⟨stack, false⟩)
    | (false, stack) => do
      Logged.emit (.rejected token stack.length)
      return (false, ⟨stack, true⟩)

def clear (r : Reducer) : Reducer := { r with stack := [], failed := false }

/-- The only expression on a stack that never refused a token. -/
def root? : Reducer → Option Expr
  | ⟨[e], false⟩ => some e
  | _ => none

/-- Takes the root off the stack, if there is one, and empties the reducer in any case. -/
def takeRoot (r : Reducer) : Option Expr × Reducer :=
  if r.depth = 1 ∧ r.failed = false then
    let (root, rest) := pop r.stack
    (root, clear { r with stack := rest })
  else (none, r.clear)

/-- Processes tokens in this order up to the first that is not accepted. -/
def acceptAll (r : Reducer) : List String → Logged (Bool × Reducer)
  | [] => return (true, r)
  | token :: tokens => do
    let s ← r.process token
    if s.1 then s.2.acceptAll tokens else return (false, s.2)

/-- Processes tokens in this order, whatever becomes of them. -/
def feed (r : Reducer) : List String → Logged Reducer
  | [] => return r
  | token :: tokens => do
    let s ← r.process token
    s.2.feed tokens

inductive Action where
  | process (token : String)
  | clear
  | takeRoot
  deriving DecidableEq, Repr

inductive Answer where
  | decided (accepted : Bool)
  | done
  | taken (root : Option Expr)
  deriving DecidableEq, Repr

def act (r : Reducer) : Action → Logged (Answer × Reducer)
  | .process token => do
    let s ← r.process token
    return (.decided s.1, s.2)
  | .clear => return (.done, r.clear)
  | .takeRoot => return (.taken r.takeRoot.1, r.takeRoot.2)

/-- What becomes of a stack that the token fits. -/
def push? : Token → List Expr → Option (List Expr)
  | .operand v, stack => some (.operand v :: stack)
  | .operator .negate, [] => none
  | .operator .negate, x :: stack => some (.negate x :: stack)
  | .operator (.binary _), [] => none
  | .operator (.binary _), [_] => none
  | .operator (.binary op), l :: r :: stack => some (.binary op l r :: stack)

def reduce? (token : String) (stack : List Expr) : Option (List Expr) := do
  push? (← Token.classify token) stack

/-- Nothing is taken off a stack that the token does not fit. -/
theorem attach_eq (t : Token) (stack : List Expr) :
    attach t stack = ((push? t stack).isSome, (push? t stack).getD stack) := by
  match t, stack with
  | .operand _, _ => rfl
  | .operator .negate, [] => rfl
  | .operator .negate, _ :: _ => rfl
  | .operator (.binary _), [] => rfl
  | .operator (.binary _), [_] => rfl
  | .operator (.binary op), l :: r :: stack => simp [attach, push?, pop]

theorem reduce_eq (token : String) (stack : List Expr) :
    reduce token stack = ((reduce? token stack).isSome, (reduce? token stack).getD stack) := by
  rw [reduce?, Token.classify_eq]
  cases hkind : Token.kind? token with
  | none => simp [reduce, hkind]
  | some kind => cases hbuild : Token.build kind token <;> simp [reduce, hkind, hbuild, attach_eq]

theorem process_of_failed {r : Reducer} (h : r.failed = true) (token : String) :
    r.process token = pure (false, r) := by simp [process, h]

theorem process_of_reduce {stack stack' : List Expr} {token : String}
    (h : reduce? token stack = some stack') :
    process ⟨stack, false⟩ token = ⟨(true, ⟨stack', false⟩), [.accepted token stack'.length]⟩ := by
  simp only [process, reduce_eq, h]
  rfl

theorem process_of_reduce_none {stack : List Expr} {token : String}
    (h : reduce? token stack = none) :
    process ⟨stack, false⟩ token = ⟨(false, ⟨stack, true⟩), [.rejected token stack.length]⟩ := by
  simp only [process, reduce_eq, h]
  rfl

/-- A refused token changes nothing but the flag. -/
theorem stack_process_of_refused {r : Reducer} {token : String}
    (h : (r.process token).value.1 = false) :
    (r.process token).value.2 = ⟨r.stack, true⟩ := by
  obtain ⟨stack, failed⟩ := r
  cases failed with
  | true => rfl
  | false =>
    cases hr : reduce? token stack with
    | none => rw [process_of_reduce_none hr]
    | some stack' => simp [process_of_reduce hr] at h

theorem takeRoot_eq (r : Reducer) : r.takeRoot = (r.root?, empty) := by
  match r with
  | ⟨[], false⟩ => rfl
  | ⟨[_], false⟩ => rfl
  | ⟨_ :: _ :: _, false⟩ => simp [takeRoot, depth, root?, clear, empty]
  | ⟨_, true⟩ => simp [takeRoot, root?, clear, empty]

theorem feed_of_failed {r : Reducer} (h : r.failed = true) (tokens : List String) :
    r.feed tokens = pure r := by
  induction tokens with
  | nil => rfl
  | cons token tokens ih => rw [feed, process_of_failed h]; exact ih

end Reducer
end PrefixCalc
