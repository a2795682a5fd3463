import Piccolo.Thread.State

/-!
# The operations `run_vm` performs on the top Lua frame

`LuaFrame` and `LuaRegisters` of `thread.rs`: the frame operations `varargs`, `set_table_list`,
`call_function`, `call_function_keep`, `call_meta_function`, `tail_call_function` and
`return_upper`, and the upvalue operations `open_upvalue`, `get_upvalue`, `set_upvalue` and
`close_upvalues`.

Each frame operation returns the state it leaves and the `VMError` it returned, if any: the source
mutates in place before some of its error exits, so an error comes with a state. `none` is a
panic. Fuel consumption is not modelled here: no operation reads the fuel.

## Main results

- the `*_cases` lemmas, one beside each operation — everything the operation can do to the
  frames, the height of the stack and the open list, branch by branch; the shape and open-list
  results of `ShapeLua` and `OpenLists` cite them and never unfold an operation

## Design notes

A `usize` expression passed to `unwrap_or` is evaluated before the call, so its subtraction panics
on underflow even when the count is a constant; the model computes it first for that reason.
-/

namespace Piccolo

/-- `top_frame is not lua frame` and friends: the top Lua frame, or a panic. -/
def topLua (s : ThreadState) : Option (LuaFields × List Frame) :=
  match s.frames with
  | .lua l :: rest => some (l, rest)
  | _ => none

/-- A frame operation runs on a Lua frame on top, and panics on anything else. -/
theorem topLua_bind_eq_some {α : Type} {s : ThreadState} {f : LuaFields × List Frame → Option α}
    {x : α} (h : (topLua s).bind f = some x) :
    ∃ l rest, s.frames = .lua l :: rest ∧ f (l, rest) = some x := by
  unfold topLua at h
  split at h
  · exact ⟨_, _, ‹_›, h⟩
  · cases h

namespace LuaFrame

-- ════════════════════════════════════════════════════════════════════════
-- Varargs and table lists
-- ════════════════════════════════════════════════════════════════════════

/-- `LuaFrame::varargs`: place the captured varargs at register `dest`. -/
def varargs (s : ThreadState) (dest : Nat) (count : VarCount) :
    Option (ThreadState × Option VMError) := do
  let (l, rest) ← topLua s
  if l.isVariable then some (s, some (.expectedVariableStack false)) else
  let varargsStart := l.bottom + 1
  let varargsLen ← Vec.sub l.base varargsStart
  let dest := l.base + dest
  match count.toConstant with
  | some c => do
    let stack ← Vec.forRange c (fun i st =>
      if i < varargsLen then Vec.copyIndex st (varargsStart + i) (dest + i)
      else Vec.set st (dest + i) .nil) s.stack
    some ({ s with stack }, none)
  | none => do
    let stack ← Vec.forRange varargsLen (fun i st => Vec.copyIndex st (varargsStart + i) (dest + i))
      (Vec.resize s.stack (dest + varargsLen) .nil)
    some ({ s with stack, frames := .lua { l with isVariable := true } :: rest }, none)

/-- What `varargs` does with the Lua frame `l` on top: refuse a variable stack, write registers
in place, or place every captured vararg and mark the stack variable. It keeps the open
upvalues. -/
theorem varargs_cases {s s' : ThreadState} {dest : Nat} {count : VarCount} {e : Option VMError}
    (h : varargs s dest count = some (s', e)) :
    ∃ l rest, s.frames = .lua l :: rest ∧ s'.openUpvalues = s.openUpvalues ∧
      (s' = s ∧ e = some (.expectedVariableStack false) ∨
        e = none ∧ s'.frames = s.frames ∧ s'.stack.length = s.stack.length ∨
        e = none ∧ s'.frames = .lua { l with isVariable := true } :: rest ∧
          l.base ≤ s'.stack.length) := by
  unfold varargs at h
  obtain ⟨l, rest, hf, h⟩ := topLua_bind_eq_some h
  refine ⟨l, rest, hf, ?_⟩
  dsimp only at h
  obtain ⟨-, ⟨⟩⟩ | ⟨-, h⟩ := ite_eq_iff.1 h
  · exact ⟨rfl, .inl ⟨rfl, rfl⟩⟩
  obtain ⟨n, -, h⟩ := Option.bind_eq_some.1 h
  split at h
  · obtain ⟨st, hst, ⟨⟩⟩ := Option.bind_eq_some.1 h
    refine ⟨rfl, .inr (.inl ⟨rfl, rfl, Vec.length_of_forRange (fun i zs zs' hb => ?_) hst⟩)⟩
    split_ifs at hb
    exacts [Vec.length_of_copyIndex hb, Vec.length_of_set hb]
  · obtain ⟨st, hst, ⟨⟩⟩ := Option.bind_eq_some.1 h
    have hlen := Vec.length_of_forRange (fun _ _ _ => Vec.length_of_copyIndex) hst
    rw [Vec.length_resize] at hlen
    exact ⟨rfl, .inr (.inr ⟨rfl, rfl, by dsimp only; omega⟩)⟩

/-- `i64::checked_add(1)`: it overflows exactly at `i64::MAX = 9223372036854775807`. -/
def checkedAddOne (x : BitVec 64) : Option (BitVec 64) :=
  if x.toInt < 9223372036854775807 then some (x + 1) else none

/-- No `i64` exceeds `i64::MAX`. -/
theorem toInt_le_max (x : BitVec 64) : x.toInt ≤ 9223372036854775807 := by
  have h : x.toInt < ((2 ^ 64 : Nat) + 1) / 2 := by
    rw [BitVec.toInt_eq_toNat_bmod]; exact Int.bmod_lt (by decide)
  simp at h
  omega

/-- Below `i64::MAX`, adding one does not wrap. -/
theorem toInt_add_one {x : BitVec 64} (h : x.toInt < 9223372036854775807) :
    (x + 1).toInt = x.toInt + 1 := by
  have hlo : -((2 ^ 64 : Nat) / 2 : Int) ≤ x.toInt := by
    rw [BitVec.toInt_eq_toNat_bmod]; exact Int.le_bmod (by decide)
  rw [BitVec.toInt_add, Int.bmod_def, show (1 : BitVec 64).toInt = 1 from rfl]
  simp at hlo ⊢
  split_ifs <;> omega

/-- The loop of `set_table_list` from round `i` with `n` rounds left: while `start + 1` does not
overflow, bump `start` and write `table[start] = stack[valuesAt + i]`. The writes it makes, and
the last `start`. -/
def setListLoop (stack : List Value) (valuesAt : Nat) :
    Nat → Nat → BitVec 64 → Option (List (BitVec 64 × Value) × BitVec 64)
  | _, 0, start => some ([], start)
  | i, n + 1, start =>
    match checkedAddOne start with
    | none => some ([], start)
    | some inc => do
      let v ← Vec.get stack (valuesAt + i)
      let (writes, last) ← setListLoop stack valuesAt (i + 1) n inc
      some ((inc, v) :: writes, last)

/-- `LuaFrame::set_table_list`: store the values above register `tableBase + 1` into the table in
register `tableBase` from the integer key in register `tableBase + 1` on. Returns, besides the
state, the table and the writes made to it. -/
def setTableList (host : Host) (s : ThreadState) (tableBase : Nat) (count : VarCount) :
    Option (ThreadState × Option (Nat × List (BitVec 64 × Value)) × Option VMError) := do
  let (l, rest) ← topLua s
  if count.isVariable ≠ l.isVariable then
    some (s, none, some (.expectedVariableStack count.isVariable)) else
  let tableInd := l.base + tableBase
  let startInd := tableInd + 1
  let table ← Vec.get s.stack tableInd
  let .table t := table | some (s, none, some (.badType ⟨"table", host.typeName table⟩))
  let varCount ← Vec.sub s.stack.length (tableInd + 2)
  let setCount := count.toConstant.getD varCount
  let startValue ← Vec.get s.stack startInd
  let .integer start := startValue | some (s, none, some (.badType ⟨"integer", host.typeName startValue⟩))
  let (writes, last) ← setListLoop s.stack (tableInd + 2) 0 setCount start
  let stack ← Vec.set s.stack startInd (.integer last)
  if count.isVariable then
    some ({ s with stack := Vec.resize stack (l.base + l.stackSize) .nil
                   frames := .lua { l with isVariable := false } :: rest }, some (t, writes), none)
  else some ({ s with stack }, some (t, writes), none)

/-- What `set_table_list` does to the frames, the stack height and the open list: fail with the
state untouched, write the key register in place, or after a variable count clear the frame's
variable stack back to its register window. -/
theorem setTableList_cases {host : Host} {s s' : ThreadState} {tableBase : Nat} {count : VarCount}
    {w : Option (Nat × List (BitVec 64 × Value))} {e : Option VMError}
    (h : setTableList host s tableBase count = some (s', w, e)) :
    ∃ l rest, s.frames = .lua l :: rest ∧ s'.openUpvalues = s.openUpvalues ∧
      (s' = s ∧ w = none ∧ (∃ x, e = some x) ∨
        e = none ∧ s'.frames = s.frames ∧ s'.stack.length = s.stack.length ∨
        e = none ∧ s'.frames = .lua { l with isVariable := false } :: rest ∧
          s'.stack.length = l.base + l.stackSize) := by
  unfold setTableList at h
  obtain ⟨l, rest, hf, h⟩ := topLua_bind_eq_some h
  refine ⟨l, rest, hf, ?_⟩
  dsimp only at h
  obtain ⟨-, ⟨⟩⟩ | ⟨-, h⟩ := ite_eq_iff.1 h
  · exact ⟨rfl, .inl ⟨rfl, rfl, _, rfl⟩⟩
  obtain ⟨table, -, h⟩ := Option.bind_eq_some.1 h
  cases table with
  | table t =>
    obtain ⟨_, -, h⟩ := Option.bind_eq_some.1 h
    obtain ⟨start, -, h⟩ := Option.bind_eq_some.1 h
    cases start with
    | integer start =>
      obtain ⟨_, -, h⟩ := Option.bind_eq_some.1 h
      obtain ⟨st, hst, h⟩ := Option.bind_eq_some.1 h
      split_ifs at h
      · cases h; exact ⟨rfl, .inr (.inr ⟨rfl, rfl, Vec.length_resize _ _ _⟩)⟩
      · cases h; exact ⟨rfl, .inr (.inl ⟨rfl, rfl, Vec.length_of_set hst⟩)⟩
    | _ => cases h; exact ⟨rfl, .inl ⟨rfl, rfl, _, rfl⟩⟩
  | _ => cases h; exact ⟨rfl, .inl ⟨rfl, rfl, _, rfl⟩⟩

-- ════════════════════════════════════════════════════════════════════════
-- Calls
-- ════════════════════════════════════════════════════════════════════════

/-- `LuaFrame::call_function`: call the function in register `func` with its arguments above it;
the results will be placed from the function's register on. -/
def callFunction (host : Host) (s : ThreadState) (func : Nat) (args returns : VarCount) :
    Option (ThreadState × Option VMError) := do
  let (l, rest) ← topLua s
  if l.isVariable ≠ args.isVariable then
    some (s, some (.expectedVariableStack args.isVariable)) else
  let frames := .lua { l with expectedReturn := some (.normal returns) } :: rest
  let functionIndex := l.base + func
  let varCount ← Vec.sub s.stack.length (functionIndex + 1)
  let argCount := args.toConstant.getD varCount
  let callee ← Vec.get s.stack functionIndex
  match host.call callee with
  | .error e => some ({ s with frames }, some (.badType e))
  | .ok (.closure c) => do
    let stack ← Vec.set s.stack functionIndex (.function (.closure c))
    let (stack, base) ←
      if argCount > c.proto.fixedParams then do
        let stack ← Vec.rotateLeftFrom (stack.take (functionIndex + 1 + argCount))
          (functionIndex + 1) c.proto.fixedParams
        some (stack, functionIndex + 1 + (argCount - c.proto.fixedParams))
      else some (stack, functionIndex + 1)
    some ({ s with
      stack := Vec.resize stack (base + c.proto.stackSize) .nil
      frames := .lua ⟨functionIndex, base, false, 0, c.proto.stackSize, none⟩ :: frames }, none)
  | .ok (.callback cb) => do
    let stack ← Vec.remove s.stack functionIndex
    some ({ s with
      stack := stack.take (functionIndex + argCount)
      frames := .callback functionIndex cb :: frames }, none)

/-- What `call_function` does with the Lua frame `l` on top: refuse a stack of the wrong kind, or
record the return `l` expects and then fail to call the value in register `func`, or place the
callee's frame there. It keeps the open upvalues. -/
theorem callFunction_cases {host : Host} {s s' : ThreadState} {func : Nat}
    {args returns : VarCount} {e : Option VMError}
    (h : callFunction host s func args returns = some (s', e)) :
    ∃ l rest, s.frames = .lua l :: rest ∧ s'.openUpvalues = s.openUpvalues ∧
      (s' = s ∧ e = some (.expectedVariableStack args.isVariable) ∨
        (∃ te, e = some (.badType te) ∧
          s' = { s with frames := .lua { l with expectedReturn := some (.normal returns) } :: rest }) ∨
        e = none ∧ Called (.lua { l with expectedReturn := some (.normal returns) } :: rest)
          (l.base + func) s'.frames s'.stack) := by
  unfold callFunction at h
  obtain ⟨l, rest, hf, h⟩ := topLua_bind_eq_some h
  refine ⟨l, rest, hf, ?_⟩
  dsimp only at h
  obtain ⟨-, ⟨⟩⟩ | ⟨-, h⟩ := ite_eq_iff.1 h
  · exact ⟨rfl, .inl ⟨rfl, rfl⟩⟩
  obtain ⟨n, hn, h⟩ := Option.bind_eq_some.1 h
  obtain ⟨callee, -, h⟩ := Option.bind_eq_some.1 h
  split at h
  · cases h; exact ⟨rfl, .inr (.inl ⟨_, rfl, rfl⟩)⟩
  · obtain ⟨_, -, h⟩ := Option.bind_eq_some.1 h
    split_ifs at h
    on_goal 1 => obtain ⟨_, -, h⟩ := Option.bind_eq_some.1 h
    all_goals
      cases h
      exact ⟨rfl, .inr (.inr ⟨rfl, .closure (by (try dsimp only); omega)⟩)⟩
  · obtain ⟨st, hst, ⟨⟩⟩ := Option.bind_eq_some.1 h
    have := Vec.length_of_remove hst
    have := (Vec.sub_eq_some.1 hn).1
    exact ⟨rfl, .inr (.inr ⟨rfl, .callback (by simp only [List.length_take]; omega)⟩)⟩

/-- `LuaFrame::call_function_keep`: call the function in register `func` with `argCount`
arguments, leaving the function and its arguments in place; the results go above them. -/
def callFunctionKeep (host : Host) (s : ThreadState) (func argCount : Nat) (returns : VarCount) :
    Option (ThreadState × Option VMError) := do
  let (l, rest) ← topLua s
  if l.isVariable then some (s, some (.expectedVariableStack false)) else
  let frames := .lua { l with expectedReturn := some (.normal returns) } :: rest
  let functionIndex := l.base + func
  let top := functionIndex + 1 + argCount
  let callee ← Vec.get s.stack functionIndex
  match host.call callee with
  | .error e => some ({ s with frames }, some (.badType e))
  | .ok (.closure c) => do
    let stack ← Vec.forRange argCount
      (fun i st => Vec.copyIndex st (functionIndex + 1 + i) (top + 1 + i))
      (Vec.resize s.stack (top + 1 + argCount) .nil)
    let stack ← Vec.set stack top (.function (.closure c))
    let (stack, base) ←
      if argCount > c.proto.fixedParams then do
        let stack ← Vec.rotateLeftFrom stack (top + 1) c.proto.fixedParams
        some (stack, top + 1 + (argCount - c.proto.fixedParams))
      else some (stack, top + 1)
    some ({ s with
      stack := Vec.resize stack (base + c.proto.stackSize) .nil
      frames := .lua ⟨top, base, false, 0, c.proto.stackSize, none⟩ :: frames }, none)
  | .ok (.callback cb) => do
    let stack ← Vec.extendFromWithin (s.stack.take top) (functionIndex + 1)
      (functionIndex + 1 + argCount)
    some ({ s with stack, frames := .callback top cb :: frames }, none)

/-- What `call_function_keep` does with the Lua frame `l` on top: refuse a variable stack, or
record the return `l` expects and then fail to call the value in register `func`, or place the
callee's frame above the copies of its arguments. It keeps the open upvalues. -/
theorem callFunctionKeep_cases {host : Host} {s s' : ThreadState} {func argCount : Nat}
    {returns : VarCount} {e : Option VMError}
    (h : callFunctionKeep host s func argCount returns = some (s', e)) :
    ∃ l rest, s.frames = .lua l :: rest ∧ s'.openUpvalues = s.openUpvalues ∧
      (s' = s ∧ e = some (.expectedVariableStack false) ∨
        (∃ te, e = some (.badType te) ∧
          s' = { s with frames := .lua { l with expectedReturn := some (.normal returns) } :: rest }) ∨
        e = none ∧ Called (.lua { l with expectedReturn := some (.normal returns) } :: rest)
          (l.base + func + 1 + argCount) s'.frames s'.stack) := by
  unfold callFunctionKeep at h
  obtain ⟨l, rest, hf, h⟩ := topLua_bind_eq_some h
  refine ⟨l, rest, hf, ?_⟩
  dsimp only at h
  obtain ⟨-, ⟨⟩⟩ | ⟨-, h⟩ := ite_eq_iff.1 h
  · exact ⟨rfl, .inl ⟨rfl, rfl⟩⟩
  obtain ⟨callee, -, h⟩ := Option.bind_eq_some.1 h
  split at h
  · cases h; exact ⟨rfl, .inr (.inl ⟨_, rfl, rfl⟩)⟩
  · obtain ⟨_, -, h⟩ := Option.bind_eq_some.1 h
    obtain ⟨_, -, h⟩ := Option.bind_eq_some.1 h
    split_ifs at h
    on_goal 1 => obtain ⟨_, -, h⟩ := Option.bind_eq_some.1 h
    all_goals
      cases h
      exact ⟨rfl, .inr (.inr ⟨rfl, .closure (by (try dsimp only); omega)⟩)⟩
  · obtain ⟨st, hst, ⟨⟩⟩ := Option.bind_eq_some.1 h
    have := Vec.length_of_extendFromWithin hst
    exact ⟨rfl, .inr (.inr ⟨rfl, .callback (by dsimp only; omega)⟩)⟩

/-- `LuaFrame::call_meta_function`: call `func` with `args` in a new frame above the whole register
window, its single result to go to register `retIndex`, if any. -/
def callMetaFunction (host : Host) (s : ThreadState) (func : Function) (args : List Value)
    (retIndex : Option Nat) : Option (ThreadState × Option VMError) := do
  let (l, rest) ← topLua s
  if l.isVariable then some (s, some (.expectedVariableStack false)) else
  let frames := .lua { l with expectedReturn := some (.meta retIndex) } :: rest
  let top := l.base + l.stackSize
  match host.call (.function func) with
  | .error e => some ({ s with frames }, some (.badType e))
  | .ok (.closure c) => do
    let stack ← Vec.set (Vec.resize s.stack (top + 1 + args.length) .nil) top
      (.function (.closure c))
    let stack ← Vec.copyFromSlice stack (top + 1) args
    let (stack, base) ←
      if args.length > c.proto.fixedParams then do
        let stack ← Vec.rotateLeftFrom stack (top + 1) c.proto.fixedParams
        some (stack, top + 1 + (args.length - c.proto.fixedParams))
      else some (stack, top + 1)
    some ({ s with
      stack := Vec.resize stack (base + c.proto.stackSize) .nil
      frames := .lua ⟨top, base, false, 0, c.proto.stackSize, none⟩ :: frames }, none)
  | .ok (.callback cb) =>
    some ({ s with stack := s.stack ++ args, frames := .callback top cb :: frames }, none)

/-- What `call_meta_function` does with the Lua frame `l` on top: refuse a variable stack, or
record the metamethod return `l` expects and then fail to call `func`, or place the callee's frame
at the end of `l`'s register window, a callback's with `args` pushed above it. It keeps the open
upvalues. -/
theorem callMetaFunction_cases {host : Host} {s s' : ThreadState} {func : Function}
    {args : List Value} {retIndex : Option Nat} {e : Option VMError}
    (h : callMetaFunction host s func args retIndex = some (s', e)) :
    ∃ l rest, s.frames = .lua l :: rest ∧ s'.openUpvalues = s.openUpvalues ∧
      (s' = s ∧ e = some (.expectedVariableStack false) ∨
        l.isVariable = false ∧
          ((∃ te, e = some (.badType te) ∧
              s' = { s with frames := .lua { l with expectedReturn := some (.meta retIndex) } :: rest }) ∨
            e = none ∧ Called (.lua { l with expectedReturn := some (.meta retIndex) } :: rest)
              (l.base + l.stackSize) s'.frames s'.stack ∨
            e = none ∧ ∃ cb, s'.openUpvalues = s.openUpvalues ∧ s'.stack = s.stack ++ args ∧
              s'.frames = .callback (l.base + l.stackSize) cb ::
                .lua { l with expectedReturn := some (.meta retIndex) } :: rest)) := by
  unfold callMetaFunction at h
  obtain ⟨l, rest, hf, h⟩ := topLua_bind_eq_some h
  refine ⟨l, rest, hf, ?_⟩
  dsimp only at h
  obtain ⟨-, ⟨⟩⟩ | ⟨hv, h⟩ := ite_eq_iff.1 h
  · exact ⟨rfl, .inl ⟨rfl, rfl⟩⟩
  have hv : l.isVariable = false := by simpa using hv
  split at h
  · cases h; exact ⟨rfl, .inr ⟨hv, .inl ⟨_, rfl, rfl⟩⟩⟩
  · obtain ⟨_, -, h⟩ := Option.bind_eq_some.1 h
    obtain ⟨_, -, h⟩ := Option.bind_eq_some.1 h
    split_ifs at h
    on_goal 1 => obtain ⟨_, -, h⟩ := Option.bind_eq_some.1 h
    all_goals
      cases h
      exact ⟨rfl, .inr ⟨hv, .inr (.inl ⟨rfl, .closure (by (try dsimp only); omega)⟩)⟩⟩
  · cases h; exact ⟨rfl, .inr ⟨hv, .inr (.inr ⟨rfl, _, rfl, rfl, rfl⟩)⟩⟩

/-- `LuaFrame::tail_call_function`: pop the current Lua frame and call the function in register
`func` in its place. -/
def tailCallFunction (host : Host) (self : ThreadId) (s : ThreadState) (cells : Cells)
    (func : Nat) (args : VarCount) : Option (ThreadState × Cells × Option VMError) := do
  let (l, rest) ← topLua s
  let s := { s with frames := rest }
  if l.isVariable ≠ args.isVariable then
    some (s, cells, some (.expectedVariableStack args.isVariable)) else
  let (s, cells) ← s.closeUpvalues self cells l.bottom
  let functionIndex := l.base + func
  let varCount ← Vec.sub s.stack.length (functionIndex + 1)
  let argCount := args.toConstant.getD varCount
  let callee ← Vec.get s.stack functionIndex
  match host.call callee with
  | .error e => some (s, cells, some (.badType e))
  | .ok (.closure c) => do
    let stack ← Vec.set s.stack l.bottom (.function (.closure c))
    let stack ← Vec.forRange argCount
      (fun i st => Vec.copyIndex st (functionIndex + 1 + i) (l.bottom + 1 + i)) stack
    let (stack, base) ←
      if argCount > c.proto.fixedParams then do
        let stack ← Vec.rotateLeftFrom (stack.take (l.bottom + 1 + argCount)) (l.bottom + 1)
          c.proto.fixedParams
        some (stack, l.bottom + 1 + (argCount - c.proto.fixedParams))
      else some (stack, l.bottom + 1)
    some ({ s with
      stack := Vec.resize stack (base + c.proto.stackSize) .nil
      frames := .lua ⟨l.bottom, base, false, 0, c.proto.stackSize, none⟩ :: rest }, cells, none)
  | .ok (.callback cb) => do
    let stack ← Vec.copyWithin s.stack (functionIndex + 1) (functionIndex + 1 + argCount) l.bottom
    some ({ s with
      stack := stack.take (l.bottom + argCount)
      frames := .callback l.bottom cb :: rest }, cells, none)

/-- What `tail_call_function` does with the Lua frame `l` on top: pop it, then refuse a stack
of the wrong kind, or close its upvalues and then fail to call the value in register `func`, or
place the callee's frame at `l`'s bottom. -/
theorem tailCallFunction_cases {host : Host} {self : ThreadId} {s s' : ThreadState}
    {cells cells' : Cells} {func : Nat} {args : VarCount} {e : Option VMError}
    (h : tailCallFunction host self s cells func args = some (s', cells', e)) :
    ∃ l rest, s.frames = .lua l :: rest ∧
      (s' = { s with frames := rest } ∧ cells' = cells ∧
          e = some (.expectedVariableStack args.isVariable) ∨
        ∃ s₂, ThreadState.closeUpvalues self { s with frames := rest } cells l.bottom =
            some (s₂, cells') ∧ s'.openUpvalues = s₂.openUpvalues ∧
          ((∃ te, e = some (.badType te) ∧ s' = s₂) ∨
            e = none ∧ Called rest l.bottom s'.frames s'.stack)) := by
  unfold tailCallFunction at h
  obtain ⟨l, rest, hf, h⟩ := topLua_bind_eq_some h
  refine ⟨l, rest, hf, ?_⟩
  dsimp only at h
  obtain ⟨-, ⟨⟩⟩ | ⟨-, h⟩ := ite_eq_iff.1 h
  · exact .inl ⟨rfl, rfl, rfl⟩
  obtain ⟨⟨s₂, c₂⟩, hc, h⟩ := Option.bind_eq_some.1 h
  obtain ⟨_, -, h⟩ := Option.bind_eq_some.1 h
  obtain ⟨callee, -, h⟩ := Option.bind_eq_some.1 h
  split at h
  · cases h; exact .inr ⟨s₂, hc, rfl, .inl ⟨_, rfl, rfl⟩⟩
  · obtain ⟨_, -, h⟩ := Option.bind_eq_some.1 h
    obtain ⟨_, -, h⟩ := Option.bind_eq_some.1 h
    split_ifs at h
    on_goal 1 => obtain ⟨_, -, h⟩ := Option.bind_eq_some.1 h
    all_goals
      cases h
      exact .inr ⟨s₂, hc, rfl, .inr ⟨rfl, .closure (by (try dsimp only); omega)⟩⟩
  · obtain ⟨st, hst, ⟨⟩⟩ := Option.bind_eq_some.1 h
    have := Vec.length_of_copyWithin hst
    have := Vec.le_of_copyWithin hst
    exact .inr ⟨s₂, hc, rfl, .inr ⟨rfl, .callback (by simp only [List.length_take]; omega)⟩⟩

/-- With fewer arguments than fixed parameters, `call_function` and `tail_call_function` leave
what the stack held above the arguments in the callee's missing parameters, where `push_call`
puts `Nil`. The caller's window is `[f, 1, 99]`, `f` takes two parameters and gets one: after
`call_function` its registers are `[1, 99]`, after `tail_call_function` they are `[1, 1]`. -/
theorem callFunction_tailCallFunction_keep_stale_registers :
    let f : Value := .function (.closure ⟨1, ⟨2, 2⟩⟩)
    let caller : ThreadState := ⟨[.lua ⟨0, 1, false, 0, 3, none⟩], [.nil, f, .integer 1, .integer 99], []⟩
    (callFunction Host.functionsOnly caller 0 (.constant 1) (.constant 0)).map (·.1.stack.drop 2) =
        some [.integer 1, .integer 99] ∧
      (tailCallFunction Host.functionsOnly 0 caller ⟨fun _ => .closed .nil, 0⟩ 0 (.constant 1)).map
        (·.1.stack.drop 1) = some [.integer 1, .integer 1] ∧
      (ThreadState.pushCall ⟨[], [.integer 1], []⟩ 0 (.closure ⟨1, ⟨2, 2⟩⟩)).map (·.stack.drop 1) =
        some [.integer 1, .nil] :=
  ⟨rfl, rfl, rfl⟩

-- ════════════════════════════════════════════════════════════════════════
-- Returns
-- ════════════════════════════════════════════════════════════════════════

/-- The part of `return_upper` after the returning frame is popped and its upvalues closed: move
`count` results from `start` to `bottom` for the frame now on top. -/
def returnValues (s : ThreadState) (bottom start count : Nat) : Option ThreadState :=
  match s.frames with
  | .sequence seqBottom _ _ :: _ =>
    if bottom = seqBottom then do
      let stack ← Vec.copyWithin s.stack start (start + count) bottom
      some { s with stack := stack.take (bottom + count) }
    else none
  | .lua l :: rest =>
    match l.expectedReturn with
    | some (.normal expected) => do
      let returning := expected.toConstant.getD count
      let stack ← Vec.forRange (min returning count)
        (fun i st => Vec.copyIndex st (start + i) (bottom + i)) s.stack
      let stack ← Vec.forRange (returning - count)
        (fun i st => Vec.set st (bottom + count + i) .nil) (Vec.resize stack (bottom + returning) .nil)
      if expected.isVariable then
        some { s with stack, frames := .lua { l with isVariable := true } :: rest }
      else
        some { s with
          stack := Vec.resize stack (l.base + l.stackSize) .nil
          frames := .lua { l with isVariable := false } :: rest }
    | some (.meta metaInd) => do
      let metaRet ← if count > 0 then Vec.get s.stack start else some .nil
      let stack := Vec.resize s.stack (l.base + l.stackSize) .nil
      let frames := .lua { l with isVariable := false } :: rest
      match metaInd with
      | some i => do
        let stack ← Vec.set stack (l.base + i) metaRet
        some { s with stack, frames }
      | none => some { s with stack, frames }
    | none => none
  | [] =>
    if bottom = 0 then do
      let stack ← Vec.copyWithin s.stack start (start + count) bottom
      some { s with stack := stack.take (bottom + count), frames := [.result bottom] }
    else none
  | _ => none

/-- What `returnValues` does: it keeps the open upvalues and returns the values at `bottom` to the
frame on top. -/
theorem returnValues_cases {s s' : ThreadState} {bottom start count : Nat}
    (h : returnValues s bottom start count = some s') :
    s'.openUpvalues = s.openUpvalues ∧ Returned bottom s.frames s'.frames s'.stack.length := by
  obtain ⟨frames, stack, ups⟩ := s
  match frames with
  | .sequence b seq pe :: rest =>
    simp only [returnValues] at h
    split_ifs at h with hb
    obtain ⟨st, hst, ⟨⟩⟩ := Option.bind_eq_some.1 h
    subst hb
    have := Vec.length_of_copyWithin hst
    have := Vec.le_of_copyWithin hst
    exact ⟨rfl, .sequence (by simp only [List.length_take]; omega)⟩
  | .lua l :: rest =>
    simp only [returnValues] at h
    split at h
    next c her =>
      have hr : l.expectedReturn ≠ none := by simp [her]
      obtain ⟨_, -, h⟩ := Option.bind_eq_some.1 h
      obtain ⟨st, hst, h⟩ := Option.bind_eq_some.1 h
      have hlen := Vec.length_of_forRange (fun _ _ _ => Vec.length_of_set) hst
      rw [Vec.length_resize] at hlen
      split_ifs at h
      · cases h; exact ⟨rfl, .variadic hr (by dsimp only; omega)⟩
      · cases h; exact ⟨rfl, .window hr (Vec.length_resize _ _ _)⟩
    next slot her =>
      have hr : l.expectedReturn ≠ none := by simp [her]
      split_ifs at h
      all_goals
        obtain ⟨_, -, h⟩ := Option.bind_eq_some.1 h
        cases slot with
        | none => cases h; exact ⟨rfl, .window hr (Vec.length_resize _ _ _)⟩
        | some i =>
          obtain ⟨st, hst, ⟨⟩⟩ := Option.bind_eq_some.1 h
          exact ⟨rfl, .window hr (by simp [Vec.length_of_set hst])⟩
    next => cases h
  | [] =>
    simp only [returnValues] at h
    split_ifs at h with hb
    obtain ⟨st, -, ⟨⟩⟩ := Option.bind_eq_some.1 h
    subst hb
    exact ⟨rfl, .result (Nat.zero_le _)⟩
  | .callback .. :: _ | .start _ :: _ | .yielded :: _ | .waitThread :: _ | .result _ :: _
  | .error _ :: _ => cases h

/-- `LuaFrame::return_upper`: pop the current Lua frame and return `count` values from register
`start` to the frame beneath. -/
def returnUpper (self : ThreadId) (s : ThreadState) (cells : Cells) (start : Nat)
    (count : VarCount) : Option (ThreadState × Cells × Option VMError) := do
  let (l, rest) ← topLua s
  let s := { s with frames := rest }
  if l.isVariable ≠ count.isVariable then
    some (s, cells, some (.expectedVariableStack count.isVariable)) else
  let (s, cells) ← s.closeUpvalues self cells l.bottom
  let start := l.base + start
  let varCount ← Vec.sub s.stack.length start
  let s ← returnValues s l.bottom start (count.toConstant.getD varCount)
  some (s, cells, none)

/-- What `return_upper` does with the Lua frame `l` on top: pop it, then refuse a count of the
wrong kind, or close its upvalues and return the values from register `start` to the frames
beneath. -/
theorem returnUpper_cases {self : ThreadId} {s s' : ThreadState} {cells cells' : Cells}
    {start : Nat} {count : VarCount} {e : Option VMError}
    (h : returnUpper self s cells start count = some (s', cells', e)) :
    ∃ l rest, s.frames = .lua l :: rest ∧
      (s' = { s with frames := rest } ∧ cells' = cells ∧
          e = some (.expectedVariableStack count.isVariable) ∨
        e = none ∧ ∃ s₂ n, ThreadState.closeUpvalues self { s with frames := rest } cells l.bottom =
            some (s₂, cells') ∧ returnValues s₂ l.bottom (l.base + start) n = some s') := by
  unfold returnUpper at h
  obtain ⟨l, rest, hf, h⟩ := topLua_bind_eq_some h
  refine ⟨l, rest, hf, ?_⟩
  dsimp only at h
  obtain ⟨-, ⟨⟩⟩ | ⟨-, h⟩ := ite_eq_iff.1 h
  · exact .inl ⟨rfl, rfl, rfl⟩
  obtain ⟨⟨s₂, c₂⟩, hc, h⟩ := Option.bind_eq_some.1 h
  obtain ⟨n, -, h⟩ := Option.bind_eq_some.1 h
  obtain ⟨s₃, hr, ⟨⟩⟩ := Option.bind_eq_some.1 h
  exact .inr ⟨rfl, s₂, _, hc, hr⟩

/-- `return_upper` and `tail_call_function` pop the current frame before they check the count
against the frame's variable stack, so the `ExpectedVariableStack` they return comes with the frame
gone: here from the only frame of a thread. -/
theorem returnUpper_tailCallFunction_error_pops_frame (host : Host) :
    let s : ThreadState := ⟨[.lua ⟨0, 1, false, 0, 1, none⟩], [.function (.closure ⟨1, ⟨0, 1⟩⟩), .nil], []⟩
    let cells : Cells := ⟨fun _ => .closed .nil, 0⟩
    (returnUpper 0 s cells 0 .variadic).map (fun r => (r.1, r.2.2)) =
        some (⟨[], s.stack, []⟩, some (.expectedVariableStack true)) ∧
      (tailCallFunction host 0 s cells 0 .variadic).map (fun r => (r.1, r.2.2)) =
        some (⟨[], s.stack, []⟩, some (.expectedVariableStack true)) :=
  ⟨rfl, rfl⟩

end LuaFrame

-- ════════════════════════════════════════════════════════════════════════
-- Registers and upvalues
-- ════════════════════════════════════════════════════════════════════════

namespace LuaRegisters

/-- `LuaFrame::registers`: the top Lua frame's `bottom` and `base`, splitting the stack at `base`,
which panics past its end. -/
def registers (s : ThreadState) : Option (Nat × Nat) := do
  let (l, _) ← topLua s
  if l.base ≤ s.stack.length then some (l.bottom, l.base) else none

/-- The registers are those of a Lua frame on top, split inside the stack. -/
theorem registers_eq_some {s : ThreadState} {bottom base : Nat}
    (h : registers s = some (bottom, base)) :
    base ≤ s.stack.length ∧ ∃ l rest, s.frames = .lua l :: rest ∧ l.bottom = bottom ∧ l.base = base := by
  unfold registers topLua at h
  split at h
  · simp only [Option.bind_eq_bind, Option.some_bind] at h
    split_ifs at h with hb
    cases h
    exact ⟨hb, _, _, ‹_›, rfl, rfl⟩
  · cases h

/-- `LuaRegisters::open_upvalue`: the cell open at register `reg`, opening one if there is none. -/
def openUpvalue (self : ThreadId) (s : ThreadState) (cells : Cells) (reg : Nat) :
    Option (UpValueId × ThreadState × Cells) := do
  let (_, base) ← registers s
  let ind := base + reg
  let r ← Vec.binarySearchBy s.openUpvalues fun u => (openUpvalueInd cells u).map (compare · ind)
  match r with
  | .ok i => do
    let u ← s.openUpvalues[i]?
    some (u, s, cells)
  | .error i => do
    let (u, cells) := cells.new (.open self ind)
    let openUpvalues ← Vec.insert s.openUpvalues i u
    some (u, { s with openUpvalues }, cells)

/-- What `open_upvalue` does on a thread with registers: return a listed cell and change nothing,
or insert one new cell, open on this thread, into the list. -/
theorem openUpvalue_cases {self : ThreadId} {s s' : ThreadState} {cells cells' : Cells} {reg : Nat}
    {u : UpValueId} (h : openUpvalue self s cells reg = some (u, s', cells')) :
    (∃ p, registers s = some p) ∧
      ((s' = s ∧ cells' = cells) ∨ ∃ i ind,
        s' = { s with openUpvalues := s.openUpvalues.take i ++ cells.next :: s.openUpvalues.drop i } ∧
        cells' = (cells.new (.open self ind)).2) := by
  simp only [openUpvalue, Option.bind_eq_bind] at h
  obtain ⟨p, hp, h⟩ := Option.bind_eq_some.1 h
  refine ⟨⟨p, hp⟩, ?_⟩
  obtain ⟨r, -, h⟩ := Option.bind_eq_some.1 h
  cases r with
  | ok i =>
    obtain ⟨_, -, ⟨⟩⟩ := Option.bind_eq_some.1 h
    exact .inl ⟨rfl, rfl⟩
  | error i =>
    obtain ⟨ups, hins, ⟨⟩⟩ := Option.bind_eq_some.1 h
    unfold Vec.insert at hins
    split_ifs at hins
    cases hins
    exact .inr ⟨i, _, rfl, rfl⟩

/-- `LuaRegisters::get_upvalue`, `threads` giving every thread's state, this one's included. -/
def getUpvalue (self : ThreadId) (threads : ThreadId → ThreadState) (cells : Cells)
    (u : UpValueId) : Option Value := do
  let (bottom, base) ← registers (threads self)
  match cells.state u with
  | .open t ind =>
    if t = self then if ind < bottom then Vec.get ((threads self).stack.take base) ind else none
    else Vec.get (threads t).stack ind
  | .closed v => some v

/-- `LuaRegisters::set_upvalue`. On a closed cell it stores the value the cell already holds. -/
def setUpvalue (self : ThreadId) (threads : ThreadId → ThreadState) (cells : Cells)
    (u : UpValueId) (value : Value) : Option ((ThreadId → ThreadState) × Cells) := do
  let (bottom, base) ← registers (threads self)
  match cells.state u with
  | .open t ind =>
    if t = self ∧ ¬ (ind < bottom ∧ ind < base) then none else do
    let stack ← Vec.set (threads t).stack ind value
    some (Function.update threads t { threads t with stack }, cells)
  | .closed v => some (threads, cells.set u (.closed v))

/-- `set_upvalue` writes one stack slot at most: every thread keeps its frames, its open
upvalues and the height of its stack. -/
theorem threads_of_setUpvalue {self : ThreadId} {threads threads' : ThreadId → ThreadState}
    {cells cells' : Cells} {u : UpValueId} {v : Value}
    (h : setUpvalue self threads cells u v = some (threads', cells')) (t : ThreadId) :
    ∃ stack : List Value, stack.length = (threads t).stack.length ∧
      threads' t = { threads t with stack } := by
  unfold setUpvalue at h
  simp only [Option.bind_eq_bind, Option.bind_eq_some] at h
  obtain ⟨_, _, h⟩ := h
  split at h
  · split_ifs at h
    simp only [Option.bind_eq_some, Option.some.injEq, Prod.mk.injEq] at h
    obtain ⟨st, hst, rfl, -⟩ := h
    rw [Function.update_apply]
    split_ifs with ht
    · subst ht; exact ⟨st, Vec.length_of_set hst, rfl⟩
    · exact ⟨_, rfl, rfl⟩
  · simp only [Option.some.injEq, Prod.mk.injEq] at h
    rw [h.1]
    exact ⟨_, rfl, rfl⟩

theorem frames_of_setUpvalue {self : ThreadId} {threads threads' : ThreadId → ThreadState}
    {cells cells' : Cells} {u : UpValueId} {v : Value}
    (h : setUpvalue self threads cells u v = some (threads', cells')) (t : ThreadId) :
    (threads' t).frames = (threads t).frames := by
  obtain ⟨_, -, he⟩ := threads_of_setUpvalue h t
  rw [he]

/-- A value written through a closed cell is lost: `get_upvalue` after `set_upvalue(u, 2)` on the
cell `Closed(1)` still reads `1`. -/
theorem getUpvalue_setUpvalue_closed_reads_old :
    ((setUpvalue 0 (fun _ => ⟨[.lua ⟨0, 1, false, 0, 1, none⟩], [.nil, .nil], []⟩)
      ⟨fun _ => .closed (.integer 1), 1⟩ 0 (.integer 2)).bind
        fun r => getUpvalue 0 r.1 r.2 0) = some (.integer 1) := by
  decide

/-- `LuaRegisters::close_upvalues`: close every open upvalue at or above register
`bottomRegister`, reading each through the split `upper_stack` / `stack_frame` slices. -/
def closeUpvalues (self : ThreadId) (s : ThreadState) (cells : Cells) (bottomRegister : Nat) :
    Option (ThreadState × Cells) := do
  let (_, base) ← registers s
  let bottom := base + bottomRegister
  let start ← closeStart cells s.openUpvalues bottom
  let read := fun ind =>
    if ind < base then Vec.get (s.stack.take base) ind else Vec.get (s.stack.drop base) (ind - base)
  let cells ← closeEach self read (s.openUpvalues.drop start) cells
  some ({ s with openUpvalues := s.openUpvalues.take start }, cells)

/-- `LuaRegisters::close_upvalues(r)` reads each slot through the stack split at `base`, which reads
the stack itself: it is `ThreadState::close_upvalues(base + r)`. -/
theorem closeUpvalues_eq (self : ThreadId) (s : ThreadState) (cells : Cells) (r : Nat) :
    closeUpvalues self s cells r =
      (registers s).bind fun p => s.closeUpvalues self cells (p.2 + r) := by
  cases hr : registers s with
  | none => simp [closeUpvalues, hr]
  | some p =>
    obtain ⟨bottom, base⟩ := p
    have hb := (registers_eq_some hr).1
    have hread : (fun ind => if ind < base then Vec.get (s.stack.take base) ind
        else Vec.get (s.stack.drop base) (ind - base)) = Vec.get s.stack := by
      funext ind
      split_ifs with hi
      · simp [Vec.get, List.getElem?_take, hi]
      · simp only [Vec.get, List.getElem?_drop, show base + (ind - base) = ind by omega]
    simp only [closeUpvalues, ThreadState.closeUpvalues, Option.bind_eq_bind, hr, Option.some_bind,
      hread]

end LuaRegisters

end Piccolo
