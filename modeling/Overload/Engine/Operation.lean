import Overload.Engine.Basic
import Overload.Values.Text

/-!
# The standard operations

What the methods of the standard instances do. Those on containers call their function argument
through the engine, item by item from left to right, and stop at the first fault.
-/

namespace Overload

/-- How an engine calls a value. -/
abbrev Apply := Engine → Value → List Value → Run Value

namespace Operation

def name : Operation → String
  | .display => "show"
  | .eq => "eq"
  | .compare => "compare"
  | .add => "add"
  | .sub => "sub"
  | .mul => "mul"
  | .negate => "negate"
  | .fmap => "fmap"
  | .pure => "pure"
  | .ap => "ap"
  | .bind => "bind"

def arity : Operation → Nat
  | .display | .negate | .pure => 1
  | _ => 2

/-- The operation as a function without arguments yet. -/
def value (op : Operation) : Value := .builtin op.name op.arity (.operation op) []

/-! ## Order and arithmetic -/

/-- The order of two values of one ordered type. -/
def order? : Value → Value → Option Ordering
  | .bool a, .bool b => some (Ord.compare a b)
  | .int a, .int b => some (Ord.compare a.toInt b.toInt)
  | .float a, .float b => a.order? b
  | .text a, .text b => some (Ord.compare a b)
  | _, _ => none

def sign : Ordering → Int64
  | .lt => -1
  | .eq => 0
  | .gt => 1

def compared (a b : Value) : Except Fault Value :=
  match order? a b with
  | some o => .ok (.int (sign o))
  | none => .error (.message s!"cannot compare {a.display} with {b.display}")

/-- The integer as a 64-bit one, which it has to be. -/
def checked (n : Int) : Except Fault Value :=
  if Int64.minValue.toInt ≤ n ∧ n ≤ Int64.maxValue.toInt then .ok (.int (.ofInt n))
  else .error (.message "integer overflow")

/-- An operation on two numbers of one type. Integers do not wrap. -/
def arithmetic (op : Operation) (onInts : Int → Int → Int)
    (onFloats : Binary64 → Binary64 → Binary64) : Value → Value → Except Fault Value
  | .int a, .int b => checked (onInts a.toInt b.toInt)
  | .float a, .float b => .ok (.float (onFloats a b))
  | a, b => .error (.message
      s!"{op.name} expects two numbers of one type, got {a.display} and {b.display}")

def negated : Value → Except Fault Value
  | .int n => checked (-n.toInt)
  | .float x => .ok (.float x.neg)
  | v => .error (.message s!"negate expects a number, got {v.display}")

/-! ## Running an operation -/

def items (context : String) : Value → Except Fault (List Value)
  | .list vs => .ok vs
  | v => .error (.message s!"{context} expects List, got {v.display}")

def wrongCount (op : Operation) (args : List Value) : Except Fault α :=
  .error (.message s!"{op.name} expects {op.arity} argument(s), got {args.length}")

def one (op : Operation) : List Value → Except Fault Value
  | [v] => .ok v
  | args => op.wrongCount args

def two (op : Operation) : List Value → Except Fault (Value × Value)
  | [v, w] => .ok (v, w)
  | args => op.wrongCount args

def run (apply : Apply) (e : Engine) (op : Operation) (args : List Value) : Run Value := do
  match op with
  | .display => return .text (← op.one args).display
  | .eq =>
      let (a, b) ← op.two args
      return .bool (a.equal b)
  | .compare =>
      let (a, b) ← op.two args
      compared a b
  | .add =>
      let (a, b) ← op.two args
      arithmetic op (· + ·) Binary64.add a b
  | .sub =>
      let (a, b) ← op.two args
      arithmetic op (· - ·) Binary64.sub a b
  | .mul =>
      let (a, b) ← op.two args
      arithmetic op (· * ·) Binary64.mul a b
  | .negate => negated (← op.one args)
  | .fmap =>
      let (func, container) ← op.two args
      let vs ← items "fmap" container
      return .list (← vs.mapM fun v => apply e func [v])
  | .pure => return .list args
  | .ap =>
      let (funcs, container) ← op.two args
      let funcs ← items "ap" funcs
      let vs ← items "ap" container
      let rows ← funcs.mapM fun func => vs.mapM fun v => apply e func [v]
      return .list rows.flatten
  | .bind =>
      let (container, continuation) ← op.two args
      let vs ← items "bind" container
      let rows ← vs.mapM fun v => do
        let produced ← apply e continuation [v]
        (items "bind continuation" produced : Except Fault (List Value))
      return .list rows.flatten

end Operation

end Overload
