import Mathlib.Logic.Function.Basic

/-!
# Values, functions, errors and upvalue cells

The data that `thread.rs` moves between frames and threads. Handles to garbage-collected objects
are compared by pointer in the source, so they are modelled by their pointer: a thread, a
callback, a sequence, a string, a table or a userdata is a natural number. A closure is its
pointer together with the two fields of its prototype that the thread code reads.

`Value`, `Function` and the error types live in modules that are not under src/; the model keeps
the variants the spec lists and that `thread.rs` builds or matches on.

## Design notes

An `i64` is its 64-bit two's complement word and an `f64` its IEEE-754 bit pattern, so equality
of values is equality of bits, as the spec's stash round trip asks.
-/

namespace Piccolo

/-- A `Thread<'gc>` handle. -/
abbrev ThreadId := Nat

/-- An `UpValue<'gc>` handle. -/
abbrev UpValueId := Nat

/-- An `AnyCallback<'gc>` handle. -/
abbrev CallbackId := Nat

/-- An `AnySequence<'gc>` handle. -/
abbrev SequenceId := Nat

/-- Modelled from the spec: the fields `fixed_params` and `stack_size` of a `FunctionPrototype`,
the only ones the frame code reads. -/
structure FunctionPrototype where
  fixedParams : Nat
  stackSize : Nat
deriving DecidableEq, Repr

/-- Modelled from the spec: a `Closure<'gc>`, its pointer and its prototype. -/
structure Closure where
  ptr : Nat
  proto : FunctionPrototype
deriving DecidableEq, Repr

/-- Modelled from the spec: `Function` is `Closure | Callback`. -/
inductive Function where
  | closure (c : Closure)
  | callback (cb : CallbackId)
deriving DecidableEq, Repr

/-- Modelled from the spec: the nine variants of `Value`; `Integer(i64)` is a 64-bit word and
`Number(f64)` its bit pattern. -/
inductive Value where
  | nil
  | boolean (b : Bool)
  | integer (i : BitVec 64)
  | number (bits : UInt64)
  | string (s : Nat)
  | table (t : Nat)
  | function (f : Function)
  | thread (t : ThreadId)
  | userData (u : Nat)
deriving DecidableEq, Repr

/-- `Value::default()` is `Nil`. -/
instance : Inhabited Value := ⟨.nil⟩

/-- Modelled from the spec: `types::VarCount`, a constant count, or the count
`VarCount::variable()` that runs to the top of the stack. -/
inductive VarCount where
  | constant (n : Nat)
  | variadic
deriving DecidableEq, Repr

namespace VarCount

def toConstant : VarCount → Option Nat
  | constant n => some n
  | variadic => none

def isVariable : VarCount → Bool
  | constant _ => false
  | variadic => true

@[simp] theorem toConstant_constant (n : Nat) : (constant n).toConstant = some n := rfl
@[simp] theorem toConstant_variadic : variadic.toConstant = none := rfl
@[simp] theorem isVariable_constant (n : Nat) : (constant n).isVariable = false := rfl
@[simp] theorem isVariable_variadic : variadic.isVariable = true := rfl

end VarCount

-- ════════════════════════════════════════════════════════════════════════
-- Errors
-- ════════════════════════════════════════════════════════════════════════

/-- `ThreadMode` (thread.rs). -/
inductive ThreadMode where
  | stopped
  | result
  | normal
  | suspended
  | waiting
  | running
deriving DecidableEq, Repr

/-- `BadThreadMode` (thread.rs): the mode found and, where one mode is expected, that mode. -/
structure BadThreadMode where
  found : ThreadMode
  expected : Option ThreadMode
deriving DecidableEq, Repr

/-- Modelled from the spec: a `TypeError`, which names the type expected and the type found. -/
structure TypeError where
  expected : String
  found : String
deriving DecidableEq, Repr

/-- Modelled from the spec: the two `VMError` variants `thread.rs` raises. -/
inductive VMError where
  | expectedVariableStack (b : Bool)
  | badType (e : TypeError)
deriving DecidableEq, Repr

/-- Modelled from the spec: the runtime errors the thread code raises, each converted into
`Error::Runtime`; `other` stands for any error a callback or sequence raises itself. -/
inductive RuntimeError where
  | vm (e : VMError)
  | badThreadMode (e : BadThreadMode)
  | other (msg : String)
deriving DecidableEq, Repr

/-- Modelled from the spec: `Error::Lua(Value)` or `Error::Runtime(RuntimeError)`. -/
inductive Error where
  | lua (v : Value)
  | runtime (e : RuntimeError)
deriving DecidableEq, Repr

/-- `impl From<VMError> for Error`. -/
def VMError.toError (e : VMError) : Error := .runtime (.vm e)

/-- `impl From<BadThreadMode> for Error`. -/
def BadThreadMode.toError (e : BadThreadMode) : Error := .runtime (.badThreadMode e)

/-- What `thread.rs` calls in modules that are not under src/: `meta_ops::call`, which turns a
called value into the function to run, and `Value::type_name`. -/
structure Host where
  call : Value → Except TypeError Function
  typeName : Value → String

/-- A host in which only a function value can be called, and it stands for itself. -/
def Host.functionsOnly : Host where
  call
    | .function f => .ok f
    | _ => .error ⟨"function", "value"⟩
  typeName _ := "value"

-- ════════════════════════════════════════════════════════════════════════
-- Upvalue cells
-- ════════════════════════════════════════════════════════════════════════

/-- `UpValueState`: a cell that aliases `stack[ind]` of a thread, or owns its value. -/
inductive UpValueState where
  | open (thread : ThreadId) (ind : Nat)
  | closed (v : Value)
deriving DecidableEq, Repr

/-- The upvalue cells of the arena, and the next pointer `Gc::new` hands out. -/
structure Cells where
  state : UpValueId → UpValueState
  next : UpValueId

namespace Cells

/-- `UpValue(Gc::new(mc, Lock::new(s)))`. -/
def new (c : Cells) (s : UpValueState) : UpValueId × Cells :=
  (c.next, { state := Function.update c.state c.next s, next := c.next + 1 })

/-- `upvalue.0.set(mc, s)`. -/
def set (c : Cells) (u : UpValueId) (s : UpValueState) : Cells :=
  { c with state := Function.update c.state u s }

@[simp] theorem set_state_self (c : Cells) (u : UpValueId) (s : UpValueState) :
    (c.set u s).state u = s := by simp [set]

@[simp] theorem set_state_ne (c : Cells) {u v : UpValueId} (s : UpValueState) (h : v ≠ u) :
    (c.set u s).state v = c.state v := by simp [set, h]

end Cells

end Piccolo
