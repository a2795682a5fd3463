import Piccolo.Thread.State

/-!
# The public operations of `Thread`

`Thread::start`, `start_suspended`, `take_result`, `resume`, `resume_err` and `reset`, and the
guard `check_mode` they share. Each acts on one thread's state; `reset` also closes the thread's
upvalues, so it takes the upvalue cells and the thread's own handle.

A call that fails the mode check returns its `BadThreadMode` and leaves the thread as it was;
`none` is a panic. The `Running` mode of a thread that is borrowed at the time of the call is
decided by the caller: in the executor, the thread whose state it holds.
-/

namespace Piccolo.Thread

/-- `Thread::check_mode`: the thread's state if its mode is `expected`. -/
def checkMode (s : ThreadState) (expected : ThreadMode) : Option (Except BadThreadMode ThreadState) := do
  let found ← s.mode
  if found = expected then some (.ok s) else some (.error ⟨found, some expected⟩)

theorem checkMode_eq_ok {s s' : ThreadState} {m : ThreadMode} :
    checkMode s m = some (.ok s') ↔ s.mode = some m ∧ s' = s := by
  unfold checkMode
  cases s.mode <;> simp
  split_ifs <;> simp_all [eq_comm]

/-- `Thread::start`: call `function` with `args` on a stopped thread. -/
def start (s : ThreadState) (function : Function) (args : List Value) :
    Option (Except BadThreadMode ThreadState) := do
  match ← checkMode s .stopped with
  | .error e => some (.error e)
  | .ok s =>
    if s.stack = [] then (ThreadState.pushCall { s with stack := s.stack ++ args } 0 function).map .ok
    else none

/-- Only a stopped thread starts. -/
theorem mode_of_start {s s' : ThreadState} {function : Function} {args : List Value}
    (h : start s function args = some (.ok s')) : s.mode = some .stopped := by
  unfold start at h
  rcases hc : checkMode s .stopped with _ | (_ | s₁) <;> simp [hc] at h
  exact (checkMode_eq_ok.1 hc).1

/-- `Thread::start_suspended`: a stopped thread becomes suspended on `function`. -/
def startSuspended (s : ThreadState) (function : Function) :
    Option (Except BadThreadMode ThreadState) := do
  match ← checkMode s .stopped with
  | .error e => some (.error e)
  | .ok s => some (.ok { s with frames := .start function :: s.frames })

/-- `Thread::take_result`: the values returned or yielded, or the error, of a thread in `Result`
mode. The conversion into the caller's type is left out: it reads the drained values only. -/
def takeResult (s : ThreadState) :
    Option (Except BadThreadMode (Except Error (List Value) × ThreadState)) := do
  match ← checkMode s .result with
  | .error e => some (.error e)
  | .ok s => s.takeResult.map .ok

/-- Only a thread in `Result` mode hands over a result. -/
theorem mode_of_takeResult {s s' : ThreadState} {r : Except Error (List Value)}
    (h : takeResult s = some (.ok (r, s'))) : s.mode = some .result := by
  unfold takeResult at h
  rcases hc : checkMode s .result with _ | (_ | s₁) <;> simp [hc] at h
  exact (checkMode_eq_ok.1 hc).1

/-- The body of `Thread::resume` once the mode check has passed. -/
def resumeChecked (s : ThreadState) (args : List Value) : Option ThreadState :=
  let bottom := s.stack.length
  let s := { s with stack := s.stack ++ args }
  match s.frames with
  | .start function :: rest =>
    if bottom = 0 ∧ s.openUpvalues = [] ∧ rest = [] then
      ThreadState.pushCall { s with frames := rest } 0 function
    else none
  | .yielded :: rest => ThreadState.returnTo { s with frames := rest } bottom
  | _ => none

/-- `Thread::resume`: resume a suspended thread with `args`. -/
def resume (s : ThreadState) (args : List Value) : Option (Except BadThreadMode ThreadState) := do
  match ← checkMode s .suspended with
  | .error e => some (.error e)
  | .ok s => (resumeChecked s args).map .ok

/-- Only a suspended thread resumes. -/
theorem mode_of_resume {s s' : ThreadState} {args : List Value}
    (h : resume s args = some (.ok s')) : s.mode = some .suspended := by
  unfold resume at h
  rcases hc : checkMode s .suspended with _ | (_ | s₁) <;> simp [hc] at h
  exact (checkMode_eq_ok.1 hc).1

/-- Taking the result of a thread with a `Result` frame on top hands over the values above the
frame's bottom and pops it. -/
theorem takeResult_of_result {s : ThreadState} {bottom : Nat} {rest : List Frame}
    (hf : s.frames = .result bottom :: rest) (hb : bottom ≤ s.stack.length) :
    takeResult s = some (.ok (.ok (s.stack.drop bottom),
      { s with frames := rest, stack := s.stack.take bottom })) := by
  simp [takeResult, checkMode, ThreadState.mode, ThreadState.frameMode, ThreadState.takeResult, hf,
    Vec.drain, hb]

/-- Resuming a thread with a `Yielded` frame on top returns the arguments to the frames beneath. -/
theorem resume_of_yielded {s : ThreadState} {rest : List Frame} (hf : s.frames = .yielded :: rest)
    (args : List Value) :
    resume s args = (ThreadState.returnTo { s with frames := rest, stack := s.stack ++ args }
      s.stack.length).map .ok := by
  simp [resume, checkMode, ThreadState.mode, ThreadState.frameMode, resumeChecked, hf]

/-- `Thread::resume_err`: raise `error` where a suspended thread was suspended. -/
def resumeErr (s : ThreadState) (error : Error) : Option (Except BadThreadMode ThreadState) := do
  match ← checkMode s .suspended with
  | .error e => some (.error e)
  | .ok s =>
    match s.frames with
    | .start _ :: rest | .yielded :: rest => some (.ok { s with frames := .error error :: rest })
    | _ => none

/-- Only a suspended thread takes an error. -/
theorem mode_of_resumeErr {s s' : ThreadState} {error : Error}
    (h : resumeErr s error = some (.ok s')) : s.mode = some .suspended := by
  unfold resumeErr at h
  rcases hc : checkMode s .suspended with _ | (_ | s₁) <;> simp [hc] at h
  exact (checkMode_eq_ok.1 hc).1

/-- `Thread::reset`: close every upvalue and clear the thread. -/
def reset (self : ThreadId) (s : ThreadState) (cells : Cells) : Option (ThreadState × Cells) := do
  let (s, cells) ← s.closeUpvalues self cells 0
  if s.openUpvalues = [] then some ({ s with stack := [], frames := [] }, cells) else none

end Piccolo.Thread
