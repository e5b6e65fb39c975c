import Overload.Number.Binary64
import Overload.Types.Signature

/-!
# Values

The dynamic values that programs compute with: plain data, data of declared types, three kinds
of functions, and foreign objects that describe themselves. Functions carry the arguments they
have been given so far. The code of a function is either one of the standard operations or a
function of the host, which a value knows only by its number.

What a foreign object says about its type is not code here, but one of three things: nothing but its
constructor, a type that is always the same, or a new copy of a type at each look (`Description`).
-/

namespace Overload

structure Variant where
  name : String
  /-- The types of the fields, written over the parameters of the declaration. -/
  fields : List Ty

/-- An algebraic data type: its constructor, its parameters and its variants. -/
structure DataType where
  con : TypeCon
  params : List Var
  variants : List Variant

/-- The first variant of that name. -/
def DataType.variant? (d : DataType) (name : String) : Option (Fin d.variants.length) :=
  d.variants.findFinIdx? (·.name == name)

/-- An index into a list of arguments, as a word of 64 bits. It need not lie within the list. -/
structure ArgIndex where
  word : UInt64
  deriving DecidableEq, Repr

namespace ArgIndex

def toNat (i : ArgIndex) : Nat := i.word.toNat

instance : OfNat ArgIndex n := ⟨⟨.ofNat n⟩⟩

instance : Coe Nat ArgIndex := ⟨fun n => ⟨.ofNat n⟩⟩

instance : Coe ArgIndex Nat := ⟨toNat⟩

/-- How many arguments it takes to reach the index. The count is a word too, and starts again at
zero after the last index. -/
def needed (i : ArgIndex) : Nat := (i.word + 1).toNat

theorem needed_eq (i : ArgIndex) :
    i.needed = if i.toNat + 1 = UInt64.size then 0 else i.toNat + 1 := by
  have hlt : i.toNat < UInt64.size := i.word.toNat_lt
  have hsum : i.needed = (i.toNat + 1) % UInt64.size := UInt64.toNat_add i.word 1
  rw [hsum]
  split
  · next hlast => rw [hlast, Nat.mod_self]
  · next hlast => exact Nat.mod_eq_of_lt (Nat.lt_of_le_of_ne hlt hlast)

end ArgIndex

/-- A reference to a method of a class. The argument at `dispatchOn` picks the instance. -/
structure MethodRef where
  cls : ClassId
  name : String
  arity : Nat
  dispatchOn : ArgIndex

/-- How a foreign object presents itself. -/
structure Description where
  ty : Ty
  /-- Whether each look at the type is at a new copy of it. -/
  copied : Bool
  text : String

/-- An object from outside with a type constructor of its own. Without a description its type is the
bare constructor. -/
structure Foreign where
  con : TypeCon
  description : Option Description := none

/-- The operations that the standard instances are made of. -/
inductive Operation where
  | display
  | eq
  | compare
  | add
  | sub
  | mul
  | negate
  | fmap
  | pure
  | ap
  | bind
  deriving DecidableEq, Repr

inductive Code where
  | operation (op : Operation)
  /-- The host function of that number. -/
  | host (index : Nat)
  deriving DecidableEq, Repr

inductive Value where
  | unit
  | bool (b : Bool)
  | int (n : Int64)
  | float (x : Binary64)
  | text (s : String)
  | list (items : List Value)
  | tuple (items : List Value)
  | data (type : DataType) (variant : Fin type.variants.length) (fields : List Value)
  /-- A function without a declared type. -/
  | builtin (name : String) (arity : Nat) (code : Code) (args : List Value)
  /-- A function that is checked against its signature at each call. -/
  | typed (name : String) (sig : Signature) (code : Code) (args : List Value)
  | method (ref : MethodRef) (args : List Value)
  | foreign (object : Foreign)

instance : Inhabited Value := ⟨.unit⟩

namespace Value

/-- The arguments that a function still takes; it may hold more than it takes. -/
def missing (arity : Nat) (args : List Value) : Nat := arity - args.length

def isCallable : Value → Bool
  | .builtin .. | .typed .. | .method .. => true
  | _ => false

def asInt? : Value → Option Int64
  | .int n => some n
  | _ => none

def asBool? : Value → Option Bool
  | .bool b => some b
  | _ => none

def asList? : Value → Option (List Value)
  | .list items => some items
  | _ => none

/-- The constructor that a value is dispatched on. All variants of a data type share one. -/
def con : Value → TypeCon
  | .unit => .unit
  | .bool _ => .bool
  | .int _ => .int
  | .float _ => .float
  | .text _ => .text
  | .list _ => .list
  | .tuple _ => .tuple
  | .data type .. => type.con
  | .builtin .. | .typed .. | .method .. => .arrow
  | .foreign object => object.con

/-! ## Equality

Data compares by content. Functions and foreign objects equal nothing, not even themselves. -/

mutual

def equal : Value → Value → Bool
  | .unit, .unit => true
  | .bool a, .bool b => a == b
  | .int a, .int b => a == b
  | .float a, .float b => a.equal b
  | .text a, .text b => a == b
  | .list as, .list bs => equalAll as bs
  | .tuple as, .tuple bs => equalAll as bs
  | .data s i as, .data t j bs => s.con == t.con && i.val == j.val && equalAll as bs
  | _, _ => false

def equalAll : List Value → List Value → Bool
  | [], [] => true
  | a :: as, b :: bs => equal a b && equalAll as bs
  | _, _ => false

end

end Value

end Overload
