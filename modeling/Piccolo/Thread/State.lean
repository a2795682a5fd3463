import Piccolo.Vec
import Piccolo.Value

/-!
# Thread state: frames, mode, and the methods of `ThreadState`

`Frame`, `LuaReturn` and `ThreadState` of `thread.rs`, with the methods of `ThreadState`:
`mode`, `push_call`, `return_to`, `take_result` and `close_upvalues`, and `open_upvalue_ind`.

## Main definitions

- `Called` — what a call leaves: the callee's frame over its window or its arguments
- `Returned` — what a return leaves on the frame that takes it

## Main results

- `ThreadState.pushCall_cases`, `ThreadState.returnTo_cases`, `ThreadState.takeResult_cases` —
  what each method does, stated once for every invariant proved about it

## Design notes

The frame stack is a list with its top frame first: `frames.push(f)` is `f :: frames` and
`frames.pop()` matches the head. The value stack is a list in index order. A method that panics
(an `assert!`, a `panic!`, an `expect`, an index out of bounds, or the `debug_assert!` of `mode`)
returns `none`.

Upvalue cells are shared objects of the arena, so closing a thread's upvalues changes the
`Cells` and needs the thread's own handle, which `close_upvalues` compares with each cell's.
-/

namespace Piccolo

inductive LuaReturn where
  /-- A normal call: the results go to the returning function's bottom. -/
  | normal (count : VarCount)
  /-- A metamethod call: an optional single result goes to a register. -/
  | meta (ind : Option Nat)
deriving DecidableEq, Repr

/-- The fields of `Frame::Lua`. -/
structure LuaFields where
  bottom : Nat
  base : Nat
  isVariable : Bool
  pc : Nat
  stackSize : Nat
  expectedReturn : Option LuaReturn
deriving DecidableEq, Repr

inductive Frame where
  | lua (l : LuaFields)
  | start (f : Function)
  | yielded
  | callback (bottom : Nat) (cb : CallbackId)
  | sequence (bottom : Nat) (seq : SequenceId) (pendingError : Option Error)
  | waitThread
  | result (bottom : Nat)
  | error (e : Error)
deriving DecidableEq, Repr

/-- `ThreadState`, its frames top first. -/
structure ThreadState where
  frames : List Frame
  stack : List Value
  openUpvalues : List UpValueId
deriving DecidableEq, Repr

/-- What a call leaves on the frames `callers`: the callee's frame at `bottom`, a closure's over
a register window filled with `Nil` that starts above `bottom`, or a callback's over its arguments
from `bottom` to the top of the stack. -/
inductive Called (callers : List Frame) (bottom : Nat) : List Frame → List Value → Prop
  | closure {base size : Nat} {stack : List Value} : bottom < base →
      Called callers bottom (.lua ⟨bottom, base, false, 0, size, none⟩ :: callers)
        (Vec.resize stack (base + size) .nil)
  | callback {cb : CallbackId} {stack : List Value} : bottom ≤ stack.length →
      Called callers bottom (.callback bottom cb :: callers) stack

/-- What a return of the values from `bottom` up leaves, the frames `frames` turned into the
frames `frames'` over a stack of height `len`: a sequence at `bottom` takes the values where they
lie, a Lua frame that expects a return keeps a variable count of them or gets its register window
back, and with no frame at all a `Result` frame holds them. -/
inductive Returned (bottom : Nat) : List Frame → List Frame → Nat → Prop
  | sequence {seq : SequenceId} {pe : Option Error} {rest : List Frame} {len : Nat} :
      bottom ≤ len →
      Returned bottom (.sequence bottom seq pe :: rest) (.sequence bottom seq pe :: rest) len
  | variadic {l : LuaFields} {rest : List Frame} {len : Nat} : l.expectedReturn ≠ none →
      bottom ≤ len → Returned bottom (.lua l :: rest) (.lua { l with isVariable := true } :: rest) len
  | window {l : LuaFields} {rest : List Frame} {len : Nat} : l.expectedReturn ≠ none →
      len = l.base + l.stackSize →
      Returned bottom (.lua l :: rest) (.lua { l with isVariable := false } :: rest) len
  | result {len : Nat} : bottom ≤ len → Returned bottom [] [.result bottom] len

namespace ThreadState

/-- The state of `Thread::new`. -/
def empty : ThreadState := ⟨[], [], []⟩

/-- The mode a top frame gives, `rest` the frames beneath it. -/
def frameMode (f : Frame) (rest : List Frame) : ThreadMode :=
  match f with
  | .lua _ | .callback .. | .sequence .. => .normal
  | .start _ | .yielded => .suspended
  | .waitThread => .waiting
  | .result _ => .result
  | .error _ => if rest = [] then .result else .normal

/-- `ThreadState::mode`. Its `debug_assert!` panics when a thread without frames still holds
values or open upvalues. -/
def mode (s : ThreadState) : Option ThreadMode :=
  match s.frames with
  | [] => if s.stack = [] ∧ s.openUpvalues = [] then some .stopped else none
  | f :: rest => some (frameMode f rest)

@[simp] theorem mode_cons (f : Frame) (rest : List Frame) (stack : List Value)
    (ups : List UpValueId) : mode ⟨f :: rest, stack, ups⟩ = some (frameMode f rest) := rfl

/-- A thread that is not `Normal` has no `Error` frame over other frames on top. -/
theorem frames_ne_of_mode {s : ThreadState} {m : ThreadMode} (h : s.mode = some m)
    (hm : m ≠ .normal) (e : Error) (f : Frame) (rest : List Frame) :
    s.frames ≠ .error e :: f :: rest := fun hf => by
  simp only [mode, hf, frameMode, List.cons_ne_nil, if_false, Option.some.injEq] at h
  exact hm h.symm

/-- `ThreadState::push_call`: a call frame for `function`, whose arguments run from `bottom` to
the top of the stack. -/
def pushCall (s : ThreadState) (bottom : Nat) (function : Function) : Option ThreadState :=
  match function with
  | .closure c => do
    let givenParams ← Vec.sub s.stack.length bottom
    let varParams :=
      if givenParams > c.proto.fixedParams then givenParams - c.proto.fixedParams else 0
    let stack ← Vec.insert s.stack bottom (.function (.closure c))
    let stack ← Vec.rotateRightFrom stack (bottom + 1) varParams
    let base := bottom + 1 + varParams
    some { s with
      stack := Vec.resize stack (base + c.proto.stackSize) .nil
      frames := .lua ⟨bottom, base, false, 0, c.proto.stackSize, none⟩ :: s.frames }
  | .callback cb => some { s with frames := .callback bottom cb :: s.frames }

/-- `ThreadState::return_to`: deliver the values from `bottom` to the top of the stack to the
frame now on top, which must be a sequence, a Lua frame, or none at all. -/
def returnTo (s : ThreadState) (bottom : Nat) : Option ThreadState :=
  match s.frames with
  | .sequence seqBottom _ _ :: _ => if bottom = seqBottom then some s else none
  | .lua l :: rest => do
    let returnLen ← Vec.sub s.stack.length bottom
    match l.expectedReturn with
    | some (.normal retCount) =>
      let returnLen := retCount.toConstant.getD returnLen
      let stack := s.stack.take (bottom + returnLen)
      some { s with
        stack := if retCount.isVariable then stack else Vec.resize stack (l.base + l.stackSize) .nil
        frames := .lua { l with isVariable := retCount.isVariable } :: rest }
    | some (.meta metaInd) =>
      let metaRet := s.stack[bottom]?.getD .nil
      let stack := Vec.resize (s.stack.take bottom) (l.base + l.stackSize) .nil
      let frames := .lua { l with isVariable := false } :: rest
      match metaInd with
      | some i => do
        let stack ← Vec.set stack (l.base + i) metaRet
        some { s with stack, frames }
      | none => some { s with stack, frames }
    | none => none
  | [] => some { s with frames := [.result bottom] }
  | _ => none

/-- `ThreadState::take_result`: pop a `Result` frame and drain its values, or pop a lone `Error`
frame, asserting that nothing is left on the thread. -/
def takeResult (s : ThreadState) : Option (Except Error (List Value) × ThreadState) :=
  match s.frames with
  | .result bottom :: rest => do
    let (kept, vals) ← Vec.drain s.stack bottom
    some (.ok vals, { s with frames := rest, stack := kept })
  | .error err :: rest =>
    if s.stack = [] ∧ rest = [] ∧ s.openUpvalues = [] then
      some (.error err, { s with frames := rest })
    else none
  | _ => none

variable {s s' : ThreadState} {bottom : Nat}

/-- What `push_call` does: it keeps the open upvalues and, over arguments on the stack, places
the callee's frame at `bottom`. -/
theorem pushCall_cases {f : Function} (h : s.pushCall bottom f = some s') :
    s'.openUpvalues = s.openUpvalues ∧
      (bottom ≤ s.stack.length → Called s.frames bottom s'.frames s'.stack) := by
  cases f with
  | closure c =>
    simp only [pushCall, Option.bind_eq_bind, Option.bind_eq_some, Option.some.injEq] at h
    obtain ⟨_, -, _, -, _, -, rfl⟩ := h
    exact ⟨rfl, fun _ => .closure (by omega)⟩
  | callback cb => cases h; exact ⟨rfl, .callback⟩

/-- What `return_to` does: it keeps the open upvalues and, over values on the stack, returns
them to the frame on top. -/
theorem returnTo_cases (h : s.returnTo bottom = some s') :
    s'.openUpvalues = s.openUpvalues ∧
      (bottom ≤ s.stack.length → Returned bottom s.frames s'.frames s'.stack.length) := by
  obtain ⟨frames, stack, ups⟩ := s
  match frames with
  | .sequence b seq pe :: rest =>
    simp only [returnTo] at h
    split_ifs at h with hb
    cases h; subst hb
    exact ⟨rfl, .sequence⟩
  | .lua l :: rest =>
    simp only [returnTo, Option.bind_eq_bind] at h
    obtain ⟨n, hn, h⟩ := Option.bind_eq_some.1 h
    obtain ⟨-, rfl⟩ := Vec.sub_eq_some.1 hn
    split at h
    next c her =>
      have hr : l.expectedReturn ≠ none := by simp [her]
      cases c <;> cases h
      · exact ⟨rfl, fun _ => .window hr (by simp)⟩
      · exact ⟨rfl, fun hb => .variadic hr (by simp at hb ⊢; omega)⟩
    next slot her =>
      have hr : l.expectedReturn ≠ none := by simp [her]
      split at h
      · obtain ⟨st, hst, ⟨⟩⟩ := Option.bind_eq_some.1 h
        exact ⟨rfl, fun _ => .window hr (by simp [Vec.length_of_set hst])⟩
      · cases h; exact ⟨rfl, fun _ => .window hr (by simp)⟩
    next => cases h
  | [] => cases h; exact ⟨rfl, .result⟩
  | .callback .. :: _ | .start _ :: _ | .yielded :: _ | .waitThread :: _ | .result _ :: _
  | .error _ :: _ => cases h

/-- What `take_result` does: pop a `Result` frame and drain the values above its bottom, or pop
a lone `Error` frame off a thread with nothing else on it. -/
theorem takeResult_cases {r : Except Error (List Value)} (h : s.takeResult = some (r, s')) :
    (∃ b rest, s.frames = .result b :: rest ∧ b ≤ s.stack.length ∧ r = .ok (s.stack.drop b) ∧
        s' = { s with frames := rest, stack := s.stack.take b }) ∨
      ∃ e, s.frames = [.error e] ∧ s.stack = [] ∧ s.openUpvalues = [] ∧ r = .error e ∧
        s' = { s with frames := [] } := by
  unfold takeResult at h
  split at h
  next b rest hf =>
    simp only [Vec.drain, Option.bind_eq_bind] at h
    split_ifs at h with hb
    · cases h; exact .inl ⟨b, rest, hf, hb, rfl, rfl⟩
    · cases h
  next e rest hf =>
    split_ifs at h with hempty
    cases h
    obtain ⟨hs, rfl, hu⟩ := hempty
    exact .inr ⟨e, hf, hs, hu, rfl, rfl⟩
  next => cases h

end ThreadState

-- ════════════════════════════════════════════════════════════════════════
-- Closing upvalues
-- ════════════════════════════════════════════════════════════════════════

/-- `open_upvalue_ind`, which panics on a closed cell. -/
def openUpvalueInd (cells : Cells) (u : UpValueId) : Option Nat :=
  match cells.state u with
  | .open _ ind => some ind
  | .closed _ => none

/-- The position of the first open upvalue at or above `bottom`: the binary search of
`close_upvalues`, taking `Ok(i)` and `Err(i)` alike. -/
def closeStart (cells : Cells) (openUpvalues : List UpValueId) (bottom : Nat) : Option Nat :=
  (Vec.binarySearchBy openUpvalues fun u => (openUpvalueInd cells u).map (compare · bottom)).map
    fun r => match r with
      | .ok i => i
      | .error i => i

/-- The loop of `close_upvalues`: close each cell, which must be open on `self`, over the value
`read` gives for its index. -/
def closeEach (self : ThreadId) (read : Nat → Option Value) :
    List UpValueId → Cells → Option Cells
  | [], cells => some cells
  | u :: us, cells =>
    match cells.state u with
    | .open t ind =>
      if t = self then do
        let v ← read ind
        closeEach self read us (cells.set u (.closed v))
      else none
    | .closed _ => none

/-- `ThreadState::close_upvalues`: close every open upvalue at or above `bottom`. -/
def ThreadState.closeUpvalues (self : ThreadId) (s : ThreadState) (cells : Cells)
    (bottom : Nat) : Option (ThreadState × Cells) := do
  let start ← closeStart cells s.openUpvalues bottom
  let cells ← closeEach self (Vec.get s.stack) (s.openUpvalues.drop start) cells
  some ({ s with openUpvalues := s.openUpvalues.take start }, cells)

/-- Closing upvalues reads the stack and the open list only, so it commutes with a change of
frames. -/
theorem ThreadState.closeUpvalues_setFrames (self : ThreadId) (s : ThreadState) (cells : Cells)
    (frames : List Frame) (bottom : Nat) :
    ({ s with frames } : ThreadState).closeUpvalues self cells bottom =
      (s.closeUpvalues self cells bottom).map fun r => ({ r.1 with frames }, r.2) := by
  simp only [ThreadState.closeUpvalues, Option.bind_eq_bind]
  cases closeStart cells s.openUpvalues bottom <;> simp

/-- Closing upvalues writes the open list only. -/
theorem ThreadState.eq_of_closeUpvalues {self : ThreadId} {s t : ThreadState} {cells cells' : Cells}
    {bottom : Nat} (h : s.closeUpvalues self cells bottom = some (t, cells')) :
    t = { s with openUpvalues := t.openUpvalues } := by
  simp only [ThreadState.closeUpvalues, Option.bind_eq_bind, Option.bind_eq_some,
    Option.some.injEq, Prod.mk.injEq] at h
  obtain ⟨_, _, _, _, rfl, rfl⟩ := h
  rfl

end Piccolo
