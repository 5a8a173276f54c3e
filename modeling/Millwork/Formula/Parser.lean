import Millwork.Formula.Error
import Millwork.Formula.Expr
/-!
# Expressions from tokens

A formula is a sum of products of operands. An operand is a number, a field, a call, or a formula in
parentheses, with any number of signs in front of it. The tokens are taken one by one; what is still
open is kept as a stack of levels, one for each open parenthesis and the outermost one.
-/
namespace Millwork.Formula
/-- How many parentheses, calls and signs may be open at once. -/
def depthLimit : Nat := 64

def lengthLimit : Nat := 1024

inductive Sign
  | plus
  | minus
deriving DecidableEq, Repr

/-- A minus negates its operand, a plus makes it a number. -/
def Sign.apply : Sign → Expr → Expr
  | .plus, e => .call .number [e]
  | .minus, e => .neg e

abbrev Pending := Option (Expr × Operator)

def Pending.close (pending : Pending) (rhs : Expr) : Expr :=
  match pending with
  | some (lhs, op) => .binary op lhs rhs
  | none => rhs

/-- What is open between two parentheses. -/
structure Level where
  sum : Pending := none
  product : Pending := none
  /-- The signs before the operand that is read, the last one first. -/
  signs : List Sign := []

/-- The operand with the signs before it, which are applied from the inside out. -/
def Level.signed (level : Level) (operand : Expr) : Expr :=
  level.signs.foldl (fun e sign => sign.apply e) operand

def Level.unsigned (level : Level) : Level :=
  { level with signs := [] }

def Level.total (level : Level) (e : Expr) : Expr :=
  level.sum.close (level.product.close e)

/-- What an open parenthesis belongs to. -/
inductive Bracket
  | group
  /-- A call with the arguments that are complete, the last one first. -/
  | call (function : Function) (args : List Expr)

/-- An open parenthesis and the level that it stands in. -/
structure Frame where
  outer : Level
  bracket : Bracket

/-- What may come next. -/
inductive Place
  | operand
  /-- Right after the parenthesis of a call: an argument or the closing parenthesis. -/
  | firstArgument
  /-- Right after a name, which an open parenthesis makes the name of a function. -/
  | named (name : String)
  | after (operand : Expr)

structure State where
  frames : List Frame := []
  level : Level := {}
  place : Place := .operand

namespace State
/-- The parentheses, calls and signs that are open. -/
def depth (s : State) : Nat :=
  s.frames.foldl (fun n frame => n + 1 + frame.outer.signs.length) s.level.signs.length

def checkDepth (s : State) : Except Error State :=
  if depthLimit < s.depth then .error (.tooDeep depthLimit) else .ok s

def complete (frames : List Frame) (level : Level) (operand : Expr) : State :=
  { frames, level := level.unsigned, place := .after (level.signed operand) }

def openSign (s : State) (sign : Sign) : Except Error State :=
  checkDepth { s with level := { s.level with signs := sign :: s.level.signs }, place := .operand }

def openGroup (s : State) : Except Error State :=
  checkDepth { frames := ⟨s.level, .group⟩ :: s.frames }

def openCall (s : State) (name : String) : Except Error State :=
  match Function.ofName? name with
  | some function =>
    checkDepth { frames := ⟨s.level, .call function []⟩ :: s.frames, place := .firstArgument }
  | none => .error (.unknownFunction name)

def closeCall (frames : List Frame) (outer : Level) (function : Function) (args : List Expr) :
    Except Error State :=
  if function.arity.allows args.length then
    .ok (complete frames outer (.call function args))
  else
    .error (.wrongArity function args.length)

/-- A token where an operand has to begin. -/
def beginOperand (s : State) (t : Token) : Except Error State :=
  match t.lexeme with
  | .number x => .ok (complete s.frames s.level (.number x))
  | .field name => .ok (complete s.frames s.level (.field name))
  | .name name => .ok { s with place := .named name }
  | .plus => s.openSign .plus
  | .minus => s.openSign .minus
  | .openParen => s.openGroup
  | _ => .error (.unexpectedToken t)

def addTo (s : State) (e : Expr) (op : Operator) : State :=
  { s with level := { sum := some (s.level.total e, op) }, place := .operand }

def multiplyTo (s : State) (e : Expr) (op : Operator) : State :=
  { s with
    level := { s.level with product := some (s.level.product.close e, op) }
    place := .operand }

/-- A token behind the complete operand `e`. -/
def continueAfter (s : State) (e : Expr) (t : Token) : Except Error State :=
  match t.lexeme, s.frames with
  | .plus, _ => .ok (s.addTo e .add)
  | .minus, _ => .ok (s.addTo e .sub)
  | .star, _ => .ok (s.multiplyTo e .mul)
  | .slash, _ => .ok (s.multiplyTo e .div)
  | .closeParen, ⟨outer, .group⟩ :: frames => .ok (complete frames outer (s.level.total e))
  | .closeParen, ⟨outer, .call function args⟩ :: frames =>
    closeCall frames outer function (s.level.total e :: args).reverse
  | .comma, ⟨outer, .call function args⟩ :: frames =>
    .ok { frames := ⟨outer, .call function (s.level.total e :: args)⟩ :: frames }
  | _, _ => .error (.unexpectedToken t)

def step (s : State) (t : Token) : Except Error State :=
  match s.place, t.lexeme, s.frames with
  | .operand, _, _ => s.beginOperand t
  | .firstArgument, .closeParen, ⟨outer, .call function args⟩ :: frames =>
    closeCall frames outer function args.reverse
  | .firstArgument, _, _ => s.beginOperand t
  | .named name, .openParen, _ => s.openCall name
  | .named name, _, _ =>
    { s with level := s.level.unsigned }.continueAfter (s.level.signed (.field name)) t
  | .after e, _, _ => s.continueAfter e t

/-- The expression, if nothing is left open. -/
def finish (s : State) : Except Error Expr :=
  match s.frames, s.place with
  | [], .named name => .ok (s.level.total (s.level.signed (.field name)))
  | [], .after e => .ok (s.level.total e)
  | _, _ => .error .unexpectedEnd

end State

/-- The expression that the tokens spell. -/
def Expr.ofTokens (tokens : List Token) : Except Error Expr :=
  if tokens.isEmpty then
    .error .empty
  else if lengthLimit < tokens.length then
    .error (.tooLong lengthLimit)
  else do
    (← tokens.foldlM State.step {}).finish

end Millwork.Formula
