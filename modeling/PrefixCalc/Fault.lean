/-! What can be wrong with an expression or a command, and how it is told to the user. -/
namespace PrefixCalc

inductive Fault where
  | format | overflow | divide | missing
  deriving DecidableEq, Repr

def Fault.message : Fault → String
  | format => "Format Error"
  | overflow => "Overflow Error"
  | divide => "Divide Error"
  | missing => "Expression Missing"

/-- Where a failure comes from: a fault, or something outside that has a message of its own. -/
inductive Cause where
  | fault (fault : Fault)
  | foreign (message : String)
  deriving DecidableEq, Repr

def Cause.message : Cause → String
  | .fault f => f.message
  | .foreign message => message

/-- A cause together with what was being attempted when it arose, outermost attempt first. -/
structure Failure where
  cause : Cause
  attempts : List String
  deriving DecidableEq, Repr

namespace Failure

/-- The fault that a failure comes from, whatever was being attempted. -/
def fault? (failure : Failure) : Option Fault :=
  match failure.cause with
  | .fault fault => some fault
  | .foreign _ => none

/-- The messages from the outermost attempt to the cause. -/
def chain (failure : Failure) : List String := failure.attempts ++ [failure.cause.message]

end Failure
end PrefixCalc
