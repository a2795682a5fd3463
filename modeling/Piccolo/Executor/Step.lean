import Piccolo.Thread.LuaFrame
import Piccolo.Thread.Thread

/-!
# One round of `Executor::step`

The loop of `Executor::step` and its helper `callback_ret`. A round finds the top thread of the
executor's thread stack, hands a finished thread's result to the thread waiting on it, and runs the
top frame of the top thread: a callback, a sequence, a batch of `run_vm`, or one step of error
unwinding.

## Main definitions

- `Arena` — every thread's state and every upvalue cell.
- `Round` — what the code outside `thread.rs` does in one round: what a callback or sequence
  leaves on its stack and returns, and the frame operations `run_vm` performs.
- `callbackRet` — `callback_ret`, the protocol of `CallbackReturn`.
- `Executor.stepRound` — one round of the loop, `none` when it panics, `some none` when it
  breaks with `true`.

## Main results

- `Executor.step_true_iff_finished` — what the documentation of `Executor::step` promises when it
  returns `true`, and that it returns `true` at once on a finished thread

## Design notes

A callback or sequence sees the stack above its bottom through `Stack`, so after it the stack is
the part below the bottom followed by whatever it left. Thread stacks are lists with the top
thread first. The thread whose state a round holds borrowed is `Running` to anything that tries to
resume it.
-/

namespace Piccolo

/-- The objects of the arena that the thread code reaches. Every thread handle names a thread;
one nothing has touched is in the state of `Thread::new`. -/
structure Arena where
  threads : ThreadId → ThreadState
  cells : Cells

namespace Arena

/-- Store the state of thread `t`. -/
def setThread (a : Arena) (t : ThreadId) (s : ThreadState) : Arena :=
  { a with threads := Function.update a.threads t s }

@[simp] theorem setThread_threads_self (a : Arena) (t : ThreadId) (s : ThreadState) :
    (a.setThread t s).threads t = s := by simp [setThread]

@[simp] theorem setThread_threads_ne (a : Arena) {t u : ThreadId} (s : ThreadState) (h : u ≠ t) :
    (a.setThread t s).threads u = a.threads u := by simp [setThread, h]

@[simp] theorem setThread_cells (a : Arena) (t : ThreadId) (s : ThreadState) :
    (a.setThread t s).cells = a.cells := rfl

end Arena

inductive CallbackReturn where
  | «return»
  | sequence (seq : SequenceId)
  | yield (toThread : Option ThreadId) (andThen : Option SequenceId)
  | call (function : Function) (andThen : Option SequenceId)
  | resume (thread : ThreadId) (andThen : Option SequenceId)
deriving DecidableEq, Repr

inductive SequencePoll where
  | pending
  | «return»
  | yield (toThread : Option ThreadId) (isTail : Bool)
  | call (function : Function) (isTail : Bool)
  | resume (thread : ThreadId) (isTail : Bool)
deriving DecidableEq, Repr

/-- The `CallbackReturn` a sequence's poll stands for: the sequence continues after a call, yield
or resume unless the poll is a tail. -/
def SequencePoll.toCallbackReturn (seq : SequenceId) : SequencePoll → CallbackReturn
  | .pending => .sequence seq
  | .return => .return
  | .yield toThread isTail => .yield toThread (if isTail then none else some seq)
  | .call function isTail => .call function (if isTail then none else some seq)
  | .resume thread isTail => .resume thread (if isTail then none else some seq)

/-- An operation `run_vm` performs on the thread whose top frame it runs. -/
inductive VmOp where
  /-- `registers.stack_frame[reg] = v`. -/
  | setRegister (reg : Nat) (v : Value)
  /-- `*registers.pc = pc`. -/
  | setPc (pc : Nat)
  | openUpvalue (reg : Nat)
  | setUpvalue (u : UpValueId) (v : Value)
  | closeUpvalues (reg : Nat)
  | varargs (dest : Nat) (count : VarCount)
  | setTableList (tableBase : Nat) (count : VarCount)
  | callFunction (func : Nat) (args returns : VarCount)
  | callFunctionKeep (func argCount : Nat) (returns : VarCount)
  | callMetaFunction (func : Function) (args : List Value) (retIndex : Option Nat)
  | tailCallFunction (func : Nat) (args : VarCount)
  | returnUpper (start : Nat) (count : VarCount)
  /-- An error `run_vm` raises itself, such as a type error in arithmetic, while it runs the top
  Lua frame. -/
  | raise (e : VMError)

/-- What the code outside `thread.rs` does in one round of `Executor::step`. -/
structure Round where
  callbackStack : List Value
  callbackResult : Except Error CallbackReturn
  sequenceStack : List Value
  sequenceResult : Except Error SequencePoll
  vm : List VmOp

/-- One operation of `run_vm` on thread `self`: the arena it leaves and the error it returned. -/
def VmOp.exec (host : Host) (self : ThreadId) (a : Arena) :
    VmOp → Option (Arena × Option VMError)
  | .setRegister reg v => do
    let (_, base) ← LuaRegisters.registers (a.threads self)
    let stack ← Vec.set (a.threads self).stack (base + reg) v
    some (a.setThread self { a.threads self with stack }, none)
  | .setPc pc => do
    let (l, rest) ← topLua (a.threads self)
    some (a.setThread self { a.threads self with frames := .lua { l with pc } :: rest }, none)
  | .openUpvalue reg => do
    let (_, s, cells) ← LuaRegisters.openUpvalue self (a.threads self) a.cells reg
    some ({ a.setThread self s with cells }, none)
  | .setUpvalue u v => do
    let (threads, cells) ← LuaRegisters.setUpvalue self a.threads a.cells u v
    some (⟨threads, cells⟩, none)
  | .closeUpvalues reg => do
    let (s, cells) ← LuaRegisters.closeUpvalues self (a.threads self) a.cells reg
    some ({ a.setThread self s with cells }, none)
  | .varargs dest count => do
    let (s, e) ← LuaFrame.varargs (a.threads self) dest count
    some (a.setThread self s, e)
  | .setTableList tableBase count => do
    let (s, _, e) ← LuaFrame.setTableList host (a.threads self) tableBase count
    some (a.setThread self s, e)
  | .callFunction func args returns => do
    let (s, e) ← LuaFrame.callFunction host (a.threads self) func args returns
    some (a.setThread self s, e)
  | .callFunctionKeep func argCount returns => do
    let (s, e) ← LuaFrame.callFunctionKeep host (a.threads self) func argCount returns
    some (a.setThread self s, e)
  | .callMetaFunction func args retIndex => do
    let (s, e) ← LuaFrame.callMetaFunction host (a.threads self) func args retIndex
    some (a.setThread self s, e)
  | .tailCallFunction func args => do
    let (s, cells, e) ← LuaFrame.tailCallFunction host self (a.threads self) a.cells func args
    some ({ a.setThread self s with cells }, e)
  | .returnUpper start count => do
    let (s, cells, e) ← LuaFrame.returnUpper self (a.threads self) a.cells start count
    some ({ a.setThread self s with cells }, e)
  | .raise e => do
    let _ ← topLua (a.threads self)
    some (a, some e)

/-- `run_vm` as the operations it performs, stopping at the first that fails. -/
def runVm (host : Host) (self : ThreadId) : List VmOp → Arena → Option (Arena × Option VMError)
  | [], a => some (a, none)
  | op :: ops, a => do
    let (a, e) ← op.exec host self a
    match e with
    | some e => some (a, some e)
    | none => runVm host self ops a

/-- An operation of `run_vm` changes no other thread's frames. -/
theorem VmOp.frames_of_exec {host : Host} {self : ThreadId} {a a' : Arena} {op : VmOp}
    {e : Option VMError} (h : op.exec host self a = some (a', e)) {u : ThreadId} (hu : u ≠ self) :
    (a'.threads u).frames = (a.threads u).frames := by
  cases op with
  | setUpvalue w v =>
    simp only [VmOp.exec, Option.bind_eq_bind, Option.bind_eq_some, Option.some.injEq,
      Prod.mk.injEq, Prod.exists] at h
    obtain ⟨_, _, hs, rfl, -⟩ := h
    exact LuaRegisters.frames_of_setUpvalue hs u
  | _ =>
    simp only [VmOp.exec, Option.bind_eq_bind, Option.bind_eq_some, Option.some.injEq,
      Prod.mk.injEq, Prod.exists] at h
    -- every other operation returns `a.setThread self s`, its cells perhaps replaced
    first
      | obtain ⟨_, _, -, rfl, -⟩ := h
      | obtain ⟨_, _, _, -, rfl, -⟩ := h
      | obtain ⟨_, _, -, _, -, rfl, -⟩ := h
    all_goals simp only [Arena.setThread_threads_ne _ _ hu]

theorem frames_of_runVm {host : Host} {self : ThreadId} :
    ∀ {ops : List VmOp} {a a' : Arena} {e : Option VMError}, runVm host self ops a = some (a', e) →
      ∀ {u : ThreadId}, u ≠ self → (a'.threads u).frames = (a.threads u).frames
  | [], a, a', e, h, u, _ => by simp only [runVm, Option.some.injEq, Prod.mk.injEq] at h; rw [← h.1]
  | op :: ops, a, a', e, h, u, hu => by
    simp only [runVm, Option.bind_eq_bind, Option.bind_eq_some, Prod.exists] at h
    obtain ⟨a₁, e₁, h₁, h₂⟩ := h
    rw [← VmOp.frames_of_exec h₁ hu]
    cases e₁ with
    | some _ => simp only [Option.some.injEq, Prod.mk.injEq] at h₂; rw [← h₂.1]
    | none => exact frames_of_runVm h₂ hu

/-- Push `Sequence { bottom, sequence, pending_error: None }` when there is a continuation. -/
def pushThen (s : ThreadState) (bottom : Nat) : Option SequenceId → ThreadState
  | some seq => { s with frames := .sequence bottom seq none :: s.frames }
  | none => s

@[simp] theorem pushThen_stack (s : ThreadState) (bottom : Nat) (andThen : Option SequenceId) :
    (pushThen s bottom andThen).stack = s.stack := by
  cases andThen <;> rfl

@[simp] theorem pushThen_openUpvalues (s : ThreadState) (bottom : Nat)
    (andThen : Option SequenceId) :
    (pushThen s bottom andThen).openUpvalues = s.openUpvalues := by
  cases andThen <;> rfl

/-- `Thread::resume` as the executor calls it while it holds thread `self` borrowed. -/
def resumeFrom (self : ThreadId) (a : Arena) (t : ThreadId) (args : List Value) :
    Option (Except BadThreadMode ThreadState) :=
  if t = self then some (.error ⟨.running, some .suspended⟩) else Thread.resume (a.threads t) args

/-- The executor resumes only another thread, and only a suspended one. -/
theorem mode_of_resumeFrom {self t : ThreadId} {a : Arena} {args : List Value} {s' : ThreadState}
    (h : resumeFrom self a t args = some (.ok s')) :
    t ≠ self ∧ (a.threads t).mode = some .suspended := by
  unfold resumeFrom at h
  split_ifs at h with ht
  · simp at h
  · exact ⟨ht, Thread.mode_of_resume h⟩

/-- `callback_ret`: act on what the top callback or sequence of thread `self`, its state `s`
with the frame popped, returned; `bottom` is the popped frame's bottom. -/
def callbackRet (self : ThreadId) (a : Arena) (threadStack : List ThreadId) (s : ThreadState)
    (bottom : Nat) : CallbackReturn → Option (Arena × List ThreadId)
  | .return => do
    let s ← s.returnTo bottom
    some (a.setThread self s, threadStack)
  | .sequence seq => some (a.setThread self (pushThen s bottom (some seq)), threadStack)
  | .yield toThread andThen =>
    let s := pushThen s bottom andThen
    let s := { s with frames := .yielded :: s.frames }
    match toThread with
    | some t => do
      let (kept, args) ← Vec.drain s.stack bottom
      let s := { s with stack := kept }
      match ← resumeFrom self a t args with
      | .error e => some (a.setThread self { s with frames := .error e.toError :: s.frames },
          threadStack)
      | .ok ts => some ((a.setThread self s).setThread t ts, t :: threadStack.tail)
    | none => some (a.setThread self { s with frames := .result bottom :: s.frames }, threadStack)
  | .call function andThen => do
    let s ← (pushThen s bottom andThen).pushCall bottom function
    some (a.setThread self s, threadStack)
  | .resume t andThen => do
    let s := pushThen s bottom andThen
    let s := { s with frames := .waitThread :: s.frames }
    let (kept, args) ← Vec.drain s.stack bottom
    let s := { s with stack := kept }
    match ← resumeFrom self a t args with
    | .error e => some (a.setThread self { s with frames := .error e.toError :: s.frames },
        threadStack)
    | .ok ts =>
      let threadStack := if s.frames.length = 1 then threadStack.tail else threadStack
      some ((a.setThread self s).setThread t ts, t :: threadStack)

/-- One step of error unwinding on a thread whose top frame is `Error`, as `Executor::step` takes
it: beneath a Lua frame, close its upvalues, leaving the open list `ups`, and truncate the stack
to its bottom; beneath a sequence with no error pending, hand the error to it; beneath any other
frame, drop that frame. -/
inductive ThreadState.Unwind : ThreadState → ThreadState → Prop
  | lua {s : ThreadState} {err : Error} {l : LuaFields} {rest : List Frame}
      (ups : List UpValueId) : s.frames = .error err :: .lua l :: rest →
      Unwind s ⟨.error err :: rest, s.stack.take l.bottom, ups⟩
  | sequence {s : ThreadState} {err : Error} {b : Nat} {seq : SequenceId} {rest : List Frame} :
      s.frames = .error err :: .sequence b seq none :: rest →
      Unwind s { s with frames := .sequence b seq (some err) :: rest }
  | drop {s : ThreadState} {err : Error} {f : Frame} {rest : List Frame} :
      s.frames = .error err :: f :: rest → (∀ l, f ≠ .lua l) → (∀ b seq pe, f ≠ .sequence b seq pe) →
      Unwind s { s with frames := .error err :: rest }

namespace Executor

/-- Hand the result of `res`, a thread that has stopped running, to `top`, the thread beneath it,
which should be waiting on it; anything else is reported as an error on `top`. -/
def deliver (a : Arena) (top res : ThreadId) : Option Arena := do
  let s := a.threads top
  let mode ← s.mode
  if mode = .waiting then
    match s.frames with
    | .waitThread :: rest =>
      let s := { s with frames := rest }
      if res = top then
        some (a.setThread top
          { s with frames := .error (BadThreadMode.toError ⟨.running, none⟩) :: s.frames })
      else
        match ← (a.threads res).mode with
        | .result => do
          let (r, resState) ← (a.threads res).takeResult
          let a := a.setThread res resState
          match r with
          | .ok vals => do
            let s ← ThreadState.returnTo { s with stack := s.stack ++ vals } s.stack.length
            some (a.setThread top s)
          | .error err => some (a.setThread top { s with frames := .error err :: s.frames })
        | .normal => none
        | resMode => some (a.setThread top
            { s with frames := .error (BadThreadMode.toError ⟨resMode, none⟩) :: s.frames })
    | _ => none
  else
    some (a.setThread top
      { s with frames := .error (BadThreadMode.toError ⟨mode, none⟩) :: s.frames })

/-- Delivering a result touches the finished thread and the thread it is delivered to only. -/
theorem threads_of_deliver {a a' : Arena} {top res : ThreadId} (h : deliver a top res = some a')
    {u : ThreadId} (hu : u ≠ top) (hr : u ≠ res) : a'.threads u = a.threads u := by
  have hset : ∀ {b : Arena} {t : ThreadId} {st : ThreadState}, u ≠ t →
      (b.setThread t st).threads u = b.threads u := fun h => Arena.setThread_threads_ne _ _ h
  simp only [deliver, Option.bind_eq_bind] at h
  repeat' (first | split at h | (rw [Option.bind_eq_some] at h; obtain ⟨_, -, h⟩ := h))
  all_goals cases h
  all_goals simp only [hset hu, hset hr]

/-- A result delivered to a thread waiting on it is returned to the frames beneath the wait, on
the waiting thread's stack. -/
theorem deliver_of_waitThread {a : Arena} {top res : ThreadId} {rest : List Frame}
    {vs : List Value} {rs : ThreadState} (hf : (a.threads top).frames = .waitThread :: rest)
    (hr : res ≠ top) (hmode : (a.threads res).mode = some .result)
    (htake : (a.threads res).takeResult = some (.ok vs, rs)) :
    deliver a top res = (ThreadState.returnTo
      { a.threads top with frames := rest, stack := (a.threads top).stack ++ vs }
      (a.threads top).stack.length).map ((a.setThread res rs).setThread top) := by
  have hw : (a.threads top).mode = some .waiting := by
    simp [ThreadState.mode, hf, ThreadState.frameMode]
  simp [deliver, hw, hf, hr, hmode, htake, Option.map_eq_bind]

/-- Run the top frame of thread `top`, whose mode is `Normal`. -/
def dispatch (host : Host) (r : Round) (a : Arena) (threadStack : List ThreadId) (top : ThreadId) :
    Option (Arena × List ThreadId) :=
  let s := a.threads top
  match s.frames with
  | .callback bottom _ :: rest =>
    let s := { s with frames := rest, stack := s.stack.take bottom ++ r.callbackStack }
    match r.callbackResult with
    | .ok ret => callbackRet top a threadStack s bottom ret
    | .error err => some (a.setThread top { s with frames := .error err :: s.frames }, threadStack)
  | .sequence bottom seq _ :: rest =>
    let s := { s with frames := rest, stack := s.stack.take bottom ++ r.sequenceStack }
    match r.sequenceResult with
    | .ok poll => callbackRet top a threadStack s bottom (poll.toCallbackReturn seq)
    | .error err => some (a.setThread top { s with frames := .error err :: s.frames }, threadStack)
  | .lua _ :: _ => do
    let (a, e) ← runVm host top r.vm a
    match e with
    | some e =>
      let s := a.threads top
      some (a.setThread top { s with frames := .error e.toError :: s.frames }, threadStack)
    | none => some (a, threadStack)
  | .error err :: rest =>
    match rest with
    | .lua l :: rest => do
      let (s, cells) ← ThreadState.closeUpvalues top { s with frames := rest } a.cells l.bottom
      some ({ a.setThread top { s with stack := s.stack.take l.bottom, frames := .error err :: rest }
        with cells }, threadStack)
    | .sequence bottom seq pending :: rest =>
      if pending = none then
        some (a.setThread top { s with frames := .sequence bottom seq (some err) :: rest }, threadStack)
      else none
    | _ :: rest => some (a.setThread top { s with frames := .error err :: rest }, threadStack)
    | [] => none
  | _ => none

/-- The unwinding branch of `dispatch` takes one step of `ThreadState.Unwind` on its top thread,
closing cells in the Lua case, and leaves the thread stack alone. -/
theorem dispatch_unwind {host : Host} {r : Round} {a a' : Arena} {ts ts' : List ThreadId}
    {top : ThreadId} {err : Error} {rest : List Frame}
    (hf : (a.threads top).frames = .error err :: rest)
    (hd : dispatch host r a ts top = some (a', ts')) :
    ts' = ts ∧ ∃ s cells, a' = { a.setThread top s with cells } ∧ (a.threads top).Unwind s := by
  simp only [dispatch, hf] at hd
  obtain _ | ⟨f, rest⟩ := rest
  · cases hd
  cases f with
  | lua l =>
    obtain ⟨⟨s₂, cells⟩, hc, ⟨⟩⟩ := Option.bind_eq_some.1 hd
    refine ⟨rfl, _, cells, rfl, ?_⟩
    rw [ThreadState.eq_of_closeUpvalues hc]
    exact .lua _ hf
  | sequence b seq pe =>
    obtain ⟨rfl, hd⟩ := ite_eq_iff.1 hd |>.resolve_right fun h => by cases h.2
    cases hd
    exact ⟨rfl, _, a.cells, rfl, .sequence hf⟩
  | callback _ _ | start _ | yielded | waitThread | result _ | error _ =>
    cases hd
    exact ⟨rfl, _, a.cells, rfl, .drop hf (fun _ h => by cases h) (fun _ _ _ h => by cases h)⟩

/-- The first half of a round of `Executor::step` on the thread stack `threadStack`, top first:
when the top thread has stopped running, pop it and deliver its result to the thread beneath.
`some none` when the loop breaks with `true`; otherwise the arena, the thread stack and its top. -/
def popFinished (a : Arena) (threadStack : List ThreadId) :
    Option (Option (Arena × List ThreadId × ThreadId)) := do
  let top ← threadStack.head?
  let mode ← (a.threads top).mode
  if mode ≠ .normal ∧ threadStack.length = 1 then some none else
  if mode = .normal then some (some (a, threadStack, top))
  else do
    let threadStack := threadStack.tail
    let next ← threadStack.head?
    let a ← deliver a next top
    some (some (a, threadStack, next))

/-- What the first half of a round can do: leave a running top in place, or pop a finished top
`old` and deliver its result to the thread now on top. -/
theorem popFinished_cases {a a₁ : Arena} {ts ts₁ : List ThreadId} {top : ThreadId}
    (hp : popFinished a ts = some (some (a₁, ts₁, top))) :
    (a₁ = a ∧ ts₁ = ts ∧ ts.head? = some top ∧ (a.threads top).mode = some .normal) ∨
      ∃ old, ts = old :: ts₁ ∧ ts₁.head? = some top ∧ deliver a top old = some a₁ := by
  cases ts with
  | nil => cases hp
  | cons t rest =>
    simp only [popFinished, List.head?_cons, Option.bind_eq_bind, Option.some_bind,
      Option.bind_eq_some] at hp
    obtain ⟨mode, hm, hp⟩ := hp
    split_ifs at hp with h₁ h₂
    · cases hp
    · cases hp; subst h₂; exact .inl ⟨rfl, rfl, rfl, hm⟩
    · cases rest with
      | nil => cases hp
      | cons next rest =>
        simp only [List.tail_cons, List.head?_cons, Option.some_bind] at hp
        obtain ⟨a₂, hdel, ⟨⟩⟩ := Option.bind_eq_some.1 hp
        exact .inr ⟨t, rfl, rfl, hdel⟩

/-- One round of the loop of `Executor::step`: `some none` when the loop breaks with `true`, the
next state otherwise, `none` on a panic. -/
def stepRound (host : Host) (r : Round) (a : Arena) (threadStack : List ThreadId) :
    Option (Option (Arena × List ThreadId)) := do
  match ← popFinished a threadStack with
  | none => some none
  | some (a, threadStack, top) =>
    if (← (a.threads top).mode) = .normal then (dispatch host r a threadStack top).map some
    else some (some (a, threadStack))

/-- `Executor::step`: rounds until the loop breaks with `true`, or until the fuel runs out.
Callbacks, sequences and `run_vm` consume fuel as they like and every round consumes some, so the
fuel a caller passes can stop the loop after any number of rounds: here, after the rounds `r :: rs`
the environment supplies. Returns what `step` returns and the state it leaves. -/
def step (host : Host) (r : Round) (rs : List Round) (a : Arena) (threadStack : List ThreadId) :
    Option (Bool × Arena × List ThreadId) :=
  match stepRound host r a threadStack with
  | none => none
  | some none => some (true, a, threadStack)
  | some (some (a, threadStack)) =>
    match rs with
    | [] => some (false, a, threadStack)
    | r :: rs => step host r rs a threadStack

/-- What every round keeps, `step` keeps. -/
theorem step_preserves {host : Host} (P : Arena → List ThreadId → Prop)
    (hP : ∀ r a ts a' ts', P a ts → stepRound host r a ts = some (some (a', ts')) → P a' ts')
    {a' : Arena} {ts' : List ThreadId} {done : Bool} (rs : List Round) :
    ∀ {r : Round} {a : Arena} {ts : List ThreadId}, P a ts →
      step host r rs a ts = some (done, a', ts') → P a' ts' := by
  induction rs with
  | nil =>
    intro r a ts h hs
    unfold step at hs
    rcases hr : stepRound host r a ts with _ | _ | ⟨a₁, ts₁⟩ <;> simp only [hr] at hs
    · cases hs
    · cases hs; exact h
    · cases hs; exact hP _ _ _ _ _ h hr
  | cons r' rs ih =>
    intro r a ts h hs
    unfold step at hs
    rcases hr : stepRound host r a ts with _ | _ | ⟨a₁, ts₁⟩ <;> simp only [hr] at hs
    · cases hs
    · cases hs; exact h
    · exact ih (hP _ _ _ _ _ h hr) hs

-- ════════════════════════════════════════════════════════════════════════
-- The public operations of `Executor`
-- ════════════════════════════════════════════════════════════════════════

/-- `Executor::run`: a thread stack holding only `thread`. -/
def run (thread : ThreadId) : List ThreadId := [thread]

/-- `Executor::start` on `thread`, the thread `Thread::new` returns: start it on `function` and run
it. The source unwraps the result of `Thread::start`. -/
def start (a : Arena) (thread : ThreadId) (function : Function) (args : List Value) :
    Option (Arena × List ThreadId) := do
  match ← Thread.start (a.threads thread) function args with
  | .ok s => some (a.setThread thread s, run thread)
  | .error _ => none

/-- What `Executor::start` does: start `thread` and run it alone. -/
theorem start_cases {a a' : Arena} {thread : ThreadId} {function : Function} {args : List Value}
    {ts : List ThreadId} (h : start a thread function args = some (a', ts)) :
    ∃ s, Thread.start (a.threads thread) function args = some (.ok s) ∧
      a' = a.setThread thread s ∧ ts = [thread] := by
  obtain ⟨r, hr, h⟩ := Option.bind_eq_some.1 h
  rcases r with _ | s
  · cases h
  cases h
  exact ⟨s, hr, rfl, rfl⟩

/-- `Executor::mode`. -/
def mode (a : Arena) (threadStack : List ThreadId) : Option ThreadMode :=
  if threadStack.length > 1 then some .normal
  else do
    let t ← threadStack.head?
    (a.threads t).mode

/-- `Executor::take_result`. -/
def takeResult (a : Arena) (threadStack : List ThreadId) :
    Option (Except BadThreadMode (Except Error (List Value)) × Arena) :=
  if threadStack.length > 1 then some (.error ⟨.normal, some .result⟩, a)
  else do
    let t ← threadStack.head?
    match ← Thread.takeResult (a.threads t) with
    | .error e => some (.error e, a)
    | .ok (r, s) => some (.ok r, a.setThread t s)

/-- `Executor::resume`. -/
def resume (a : Arena) (threadStack : List ThreadId) (args : List Value) :
    Option (Except BadThreadMode Unit × Arena) :=
  if threadStack.length > 1 then some (.error ⟨.normal, some .suspended⟩, a)
  else do
    let t ← threadStack.head?
    match ← Thread.resume (a.threads t) args with
    | .error e => some (.error e, a)
    | .ok s => some (.ok (), a.setThread t s)

/-- `Executor::resume_err`. -/
def resumeErr (a : Arena) (threadStack : List ThreadId) (error : Error) :
    Option (Except BadThreadMode Unit × Arena) :=
  if threadStack.length > 1 then some (.error ⟨.normal, some .suspended⟩, a)
  else do
    let t ← threadStack.head?
    match ← Thread.resumeErr (a.threads t) error with
    | .error e => some (.error e, a)
    | .ok s => some (.ok (), a.setThread t s)

/-- `Executor::reset`: run `thread` from now on. -/
def reset (thread : ThreadId) : List ThreadId := [thread]

/-- `Executor::restart`: keep the first thread of the stack, the lowest, reset it and start it
on `function`. The source unwraps both results. -/
def restart (a : Arena) (threadStack : List ThreadId) (function : Function) (args : List Value) :
    Option (Arena × List ThreadId) := do
  let t ← threadStack.getLast?
  let (s, cells) ← Thread.reset t (a.threads t) a.cells
  match ← Thread.start s function args with
  | .ok s => some ({ a.setThread t s with cells }, [t])
  | .error _ => none

/-- What `Executor::restart` does: reset the lowest thread `t` and start it again, alone. -/
theorem restart_cases {a a' : Arena} {ts ts' : List ThreadId} {function : Function}
    {args : List Value} (h : restart a ts function args = some (a', ts')) :
    ∃ t s cells s', ts.getLast? = some t ∧ Thread.reset t (a.threads t) a.cells = some (s, cells) ∧
      Thread.start s function args = some (.ok s') ∧ a' = { a.setThread t s' with cells } ∧
      ts' = [t] := by
  obtain ⟨t, ht, h⟩ := Option.bind_eq_some.1 h
  obtain ⟨⟨s, cells⟩, hr, h⟩ := Option.bind_eq_some.1 h
  obtain ⟨r, hst, h⟩ := Option.bind_eq_some.1 h
  rcases r with _ | s'
  · cases h
  cases h
  exact ⟨t, s, cells, s', ht, hr, hst, rfl, rfl⟩

-- ════════════════════════════════════════════════════════════════════════
-- When `step` returns `true`
-- ════════════════════════════════════════════════════════════════════════

/-- The first half of a round breaks the loop exactly when the thread stack holds one thread and
that thread is not `Normal`. -/
theorem popFinished_eq_none_iff {a : Arena} {ts : List ThreadId} :
    popFinished a ts = some none ↔ ∃ t m, ts = [t] ∧ (a.threads t).mode = some m ∧ m ≠ .normal := by
  constructor
  · intro hp
    cases ts with
    | nil => cases hp
    | cons t rest =>
      simp only [popFinished, List.head?_cons, Option.bind_eq_bind, Option.some_bind,
        Option.bind_eq_some] at hp
      obtain ⟨m, hm, hp⟩ := hp
      split_ifs at hp with h₁ h₂
      · refine ⟨t, m, ?_, hm, h₁.1⟩
        cases rest with
        | nil => rfl
        | cons _ _ => simp at h₁
      · cases hp
      · cases rest with
        | nil => cases hp
        | cons next rest =>
          simp only [List.tail_cons, List.head?_cons, Option.some_bind] at hp
          obtain ⟨_, -, ⟨⟩⟩ := Option.bind_eq_some.1 hp
  · rintro ⟨t, m, rfl, hm, hne⟩
    simp [popFinished, hm, hne]

/-- A round breaks the loop exactly when its first half does: running the top frame always goes
on. -/
theorem stepRound_eq_none_iff {host : Host} {r : Round} {a : Arena} {ts : List ThreadId} :
    stepRound host r a ts = some none ↔ popFinished a ts = some none := by
  constructor
  · intro hs
    obtain ⟨p, hp, hs⟩ := Option.bind_eq_some.1 hs
    rcases p with _ | ⟨a₁, ts₁, top⟩
    · exact hp
    · obtain ⟨_, -, hs⟩ := Option.bind_eq_some.1 hs
      split_ifs at hs
      · obtain ⟨_, -, hs⟩ := Option.map_eq_some'.1 hs
        cases hs
      · cases hs
  · intro hp
    simp [stepRound, hp]

/-- The contract of `Executor::step`: it returns `true` only when one thread is left on the thread
stack and that thread is no longer `Normal`, so that `Executor::mode` is not `Normal` either; and
on such a stack it returns `true` at once, changing nothing. -/
theorem step_true_iff_finished {host : Host} {r : Round} {rs : List Round} {a : Arena}
    {ts : List ThreadId} :
    (∀ {a' ts'}, step host r rs a ts = some (true, a', ts') →
      ∃ t m, ts' = [t] ∧ (a'.threads t).mode = some m ∧ m ≠ .normal ∧ mode a' ts' = some m) ∧
    ((∃ t m, ts = [t] ∧ (a.threads t).mode = some m ∧ m ≠ .normal) →
      step host r rs a ts = some (true, a, ts)) := by
  refine ⟨fun {a' ts'} h => ?_, fun hf => ?_⟩
  · -- the loop breaks on the state a round found
    have hdone : ∀ {r a ts}, stepRound host r a ts = some none →
        ∃ t m, ts = [t] ∧ (a.threads t).mode = some m ∧ m ≠ .normal ∧ mode a ts = some m :=
      fun hr => by
        obtain ⟨t, m, rfl, hm, hne⟩ := popFinished_eq_none_iff.1 (stepRound_eq_none_iff.1 hr)
        exact ⟨t, m, rfl, hm, hne, by simp [mode, hm]⟩
    induction rs generalizing r a ts with
    | nil =>
      unfold step at h
      rcases hr : stepRound host r a ts with _ | _ | ⟨a₁, ts₁⟩ <;> simp only [hr] at h
      · cases h
      · cases h; exact hdone hr
      · cases h
    | cons r' rs ih =>
      unfold step at h
      rcases hr : stepRound host r a ts with _ | _ | ⟨a₁, ts₁⟩ <;> simp only [hr] at h
      · cases h
      · cases h; exact hdone hr
      · exact ih h
  · unfold step
    rw [stepRound_eq_none_iff.2 (popFinished_eq_none_iff.2 hf)]

/-- A closure that returns at once: the first round leaves a `Result` frame on its thread, and the
second finds the thread finished and stops the step with `true`. -/
theorem step_true_after_return :
    let a : Arena := ⟨Function.update (fun _ => .empty) 0
      ⟨[.lua ⟨0, 1, false, 0, 2, none⟩], [.function (.closure ⟨1, ⟨0, 2⟩⟩), .nil, .nil], []⟩,
      ⟨fun _ => .closed .nil, 0⟩⟩
    let r : Round := ⟨[], .ok .return, [], .ok .pending, [.returnUpper 0 (.constant 0)]⟩
    ∃ a' ts', step Host.functionsOnly r [⟨[], .ok .return, [], .ok .pending, []⟩] a [0] =
        some (true, a', ts') ∧
      ∃ t m, ts' = [t] ∧ (a'.threads t).mode = some m ∧ m ≠ .normal ∧ mode a' ts' = some m := by
  intro a r
  obtain ⟨a', ts', h⟩ : ∃ a' ts',
      step Host.functionsOnly r [⟨[], .ok .return, [], .ok .pending, []⟩] a [0] =
        some (true, a', ts') := ⟨_, _, by simp only [a, r]; rfl⟩
  exact ⟨a', ts', h, step_true_iff_finished.1 h⟩

/-- A callback that fails keeps its values on the stack. An executor started on a callback with
one argument, whose call returns an error and leaves the argument where it was, ends its step with
a lone `Error` frame over that argument; `take_result` then panics on
`assert!(self.stack.is_empty())`. -/
theorem callback_error_leaves_stack :
    let err : Error := .lua (.string 0)
    let a : Arena := ⟨fun _ => .empty, ⟨fun _ => .closed .nil, 0⟩⟩
    let r : Round := ⟨[.integer 1], .error err, [], .error err, []⟩
    ((start a 0 (.callback 0) [.integer 1]).bind fun (a, ts) =>
      (step Host.functionsOnly r [] a ts).map fun (done, a, _) => (done, a.threads 0)) =
        some (false, ⟨[.error err], [.integer 1], []⟩) ∧
    ((start a 0 (.callback 0) [.integer 1]).bind fun (a, ts) =>
      (step Host.functionsOnly r [] a ts).bind fun (_, a, ts) => takeResult a ts) = none :=
  ⟨rfl, rfl⟩

/-- An upvalue can outlive every Lua frame of its thread. A thread started on a closure opens an
upvalue at register 0 and then returns with a variable count from its constant stack: the frame is
popped before the error, the error frame lands on nothing, and the cell stays open at index 1 above
no frame. `take_result` then panics on `assert!(self.open_upvalues.is_empty())`. -/
theorem open_upvalue_survives_returnUpper_error :
    let c : Function := .closure ⟨1, ⟨0, 1⟩⟩
    let a : Arena := ⟨fun _ => .empty, ⟨fun _ => .closed .nil, 0⟩⟩
    let r : Round := ⟨[], .ok .return, [], .ok .return, [.openUpvalue 0, .returnUpper 0 .variadic]⟩
    ((start a 0 c []).bind fun (a, ts) =>
      (step Host.functionsOnly r [] a ts).map fun (_, a, _) => (a.threads 0, a.cells.state 0)) =
        some (⟨[.error (VMError.expectedVariableStack true).toError], [.function c, .nil], [0]⟩,
          .open 0 1) ∧
    ((start a 0 c []).bind fun (a, ts) =>
      (step Host.functionsOnly r [] a ts).bind fun (_, a, ts) => takeResult a ts) = none :=
  ⟨rfl, rfl⟩

end Executor

end Piccolo
