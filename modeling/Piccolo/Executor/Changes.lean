import Piccolo.Executor.System
import Piccolo.Thread.OpenLists

/-!
# What the operations do to the upvalues

Four kinds of change touch the threads' open upvalue lists or the upvalue cells: storing a
thread's state with the list it had, closing upvalues of one thread, opening one, and writing
through a cell. Every operation of a round of `Executor::step`, of `Thread` and of `Executor` is a
run of such changes. This file proves that, and gives the operations of the embedder as a step
relation: its runs from the initial state are the states the embedder reaches, with the operations
of `Thread` on any thread, a waiting one included.

## Main definitions

- `Arena.Change` — one change to the open lists or the cells
- `System.Step` — one operation of the embedder
- `System.Reaches` — the states the embedder reaches

## Main results

- `Executor.changes_stepRound` — a round of `Executor::step` is a run of changes
- `System.Step.changes` — so is every operation of the embedder
- `System.Reachable.reaches` — an embedder that leaves waiting threads alone is one of them

## Design notes

Every property of the open lists and the cells is proved once per kind of change and lifted
along runs (`Arena.changes_preserves`), instead of by a case analysis of every operation. A write
through an open cell changes a stack slot of the thread the cell is open on, and so is a change of
its own kind, not a `keep`.
-/

namespace Piccolo

namespace Arena

/-- One change to the threads' open lists or the upvalue cells. -/
inductive Change : Arena → Arena → Prop where
  /-- Thread `t` stored with the open list it had, the cells untouched. -/
  | keep {a : Arena} {t : ThreadId} {s : ThreadState} :
      s.openUpvalues = (a.threads t).openUpvalues → Change a (a.setThread t s)
  /-- Thread `t` closing upvalues. -/
  | close {a : Arena} {t : ThreadId} {s : ThreadState} {cells : Cells} :
      Closes (a.threads t) s a.cells cells → Change a { a.setThread t s with cells }
  /-- `LuaRegisters::open_upvalue` on thread `t`. -/
  | openUpvalue {a : Arena} {t : ThreadId} {s : ThreadState} {cells : Cells} {reg : Nat}
      {w : UpValueId} :
      LuaRegisters.openUpvalue t (a.threads t) a.cells reg = some (w, s, cells) →
      Change a { a.setThread t s with cells }
  /-- `LuaRegisters::set_upvalue` from thread `t`. -/
  | setUpvalue {a : Arena} {t : ThreadId} {threads : ThreadId → ThreadState} {cells : Cells}
      {w : UpValueId} {v : Value} :
      LuaRegisters.setUpvalue t a.threads a.cells w v = some (threads, cells) →
      Change a ⟨threads, cells⟩

variable {a a' : Arena}

/-- What every change keeps, every run of changes keeps. -/
theorem changes_preserves (P : Arena → Prop) (hP : ∀ {a a'}, Change a a' → P a → P a')
    (hc : Relation.ReflTransGen Change a a') (h : P a) : P a' := by
  induction hc with
  | refl => exact h
  | tail _ hs ih => exact hP hs ih

end Arena

open Relation (ReflTransGen)

section Run

variable {host : Host} {self : ThreadId} {a a' : Arena}

theorem VmOp.changes_exec {op : VmOp} {e : Option VMError}
    (hx : op.exec host self a = some (a', e)) : ReflTransGen Arena.Change a a' := by
  cases op <;> unfold VmOp.exec at hx
  case setRegister reg v =>
    obtain ⟨_, -, hx⟩ := Option.bind_eq_some.1 hx
    obtain ⟨_, -, ⟨⟩⟩ := Option.bind_eq_some.1 hx
    exact .single (.keep rfl)
  case setPc pc =>
    obtain ⟨_, _, -, ⟨⟩⟩ := topLua_bind_eq_some hx
    exact .single (.keep rfl)
  case openUpvalue reg =>
    obtain ⟨⟨_, _, _⟩, hs, ⟨⟩⟩ := Option.bind_eq_some.1 hx
    exact .single (.openUpvalue hs)
  case setUpvalue u v =>
    obtain ⟨⟨_, _⟩, hs, ⟨⟩⟩ := Option.bind_eq_some.1 hx
    exact .single (.setUpvalue hs)
  case closeUpvalues reg =>
    obtain ⟨⟨_, _⟩, hs, ⟨⟩⟩ := Option.bind_eq_some.1 hx
    exact .single (.close (LuaRegisters.closes_of_closeUpvalues hs))
  case varargs dest count =>
    obtain ⟨⟨_, _⟩, hs, ⟨⟩⟩ := Option.bind_eq_some.1 hx
    exact .single (.keep (LuaFrame.openUpvalues_of_varargs hs))
  case setTableList tableBase count =>
    obtain ⟨⟨_, _, _⟩, hs, ⟨⟩⟩ := Option.bind_eq_some.1 hx
    exact .single (.keep (LuaFrame.openUpvalues_of_setTableList hs))
  case callFunction func args returns =>
    obtain ⟨⟨_, _⟩, hs, ⟨⟩⟩ := Option.bind_eq_some.1 hx
    exact .single (.keep (LuaFrame.openUpvalues_of_callFunction hs))
  case callFunctionKeep func argCount returns =>
    obtain ⟨⟨_, _⟩, hs, ⟨⟩⟩ := Option.bind_eq_some.1 hx
    exact .single (.keep (LuaFrame.openUpvalues_of_callFunctionKeep hs))
  case callMetaFunction func args retIndex =>
    obtain ⟨⟨_, _⟩, hs, ⟨⟩⟩ := Option.bind_eq_some.1 hx
    exact .single (.keep (LuaFrame.openUpvalues_of_callMetaFunction hs))
  case tailCallFunction func args =>
    obtain ⟨⟨_, _, _⟩, hs, ⟨⟩⟩ := Option.bind_eq_some.1 hx
    exact .single (.close (LuaFrame.closes_of_tailCallFunction hs))
  case returnUpper start count =>
    obtain ⟨⟨_, _, _⟩, hs, ⟨⟩⟩ := Option.bind_eq_some.1 hx
    exact .single (.close (LuaFrame.closes_of_returnUpper hs))
  case raise err =>
    obtain ⟨_, _, -, ⟨⟩⟩ := topLua_bind_eq_some hx
    exact .refl

theorem changes_runVm :
    ∀ {ops : List VmOp} {a a' : Arena} {e : Option VMError},
      runVm host self ops a = some (a', e) → ReflTransGen Arena.Change a a'
  | [], _, _, _, hr => by cases hr; exact .refl
  | op :: ops, _, _, _, hr => by
    unfold runVm at hr
    obtain ⟨⟨a₁, e₁⟩, h₁, hr⟩ := Option.bind_eq_some.1 hr
    have hc := VmOp.changes_exec h₁
    cases e₁ with
    | some _ => cases hr; exact hc
    | none => exact hc.trans (changes_runVm hr)

end Run

namespace Executor

variable {a a' : Arena} {ts ts' : List ThreadId}

/-- `callback_ret` stores thread `self` with the open list it had, and a thread it resumes with
the open list that thread had. -/
theorem changes_callbackRet {self : ThreadId} {s : ThreadState} {bottom : Nat}
    {ret : CallbackReturn} (hr : callbackRet self a ts s bottom ret = some (a', ts'))
    (hs : s.openUpvalues = (a.threads self).openUpvalues) : ReflTransGen Arena.Change a a' := by
  have hp : ∀ andThen, (pushThen s bottom andThen).openUpvalues = (a.threads self).openUpvalues :=
    fun _ => (pushThen_openUpvalues _ _ _).trans hs
  have switch : ∀ {t args st} {k : ThreadState} {ts'' : List ThreadId},
      k.openUpvalues = (a.threads self).openUpvalues → resumeFrom self a t args = some st →
      (match st with
        | .error e => some (a.setThread self { k with frames := .error e.toError :: k.frames }, ts)
        | .ok ts => some ((a.setThread self k).setThread t ts, t :: ts'')) = some (a', ts') →
      ReflTransGen Arena.Change a a' := by
    intro t args st k ts'' hk hres hm
    cases st with
    | error e => cases hm; exact .single (.keep hk)
    | ok st =>
      cases hm
      obtain ⟨hself, -⟩ := mode_of_resumeFrom hres
      unfold resumeFrom at hres
      rw [if_neg hself] at hres
      refine .tail (.single (.keep hk)) (.keep ?_)
      rw [Arena.setThread_threads_ne _ _ hself]
      exact Thread.openUpvalues_of_resume hres
  cases ret with
  | «return» =>
    obtain ⟨_, hs', ⟨⟩⟩ := Option.bind_eq_some.1 hr
    exact .single (.keep ((ThreadState.openUpvalues_of_returnTo hs').trans hs))
  | sequence seq =>
    cases hr
    exact .single (.keep (hp _))
  | call f andThen =>
    obtain ⟨_, hs', ⟨⟩⟩ := Option.bind_eq_some.1 hr
    exact .single (.keep ((ThreadState.openUpvalues_of_pushCall hs').trans (hp _)))
  | yield toThread andThen =>
    cases toThread with
    | none => cases hr; exact .single (.keep (hp _))
    | some t =>
      obtain ⟨_, -, hr⟩ := Option.bind_eq_some.1 hr
      obtain ⟨_, hres, hr⟩ := Option.bind_eq_some.1 hr
      exact switch (by exact hp _) hres hr
  | resume t andThen =>
    obtain ⟨_, -, hr⟩ := Option.bind_eq_some.1 hr
    obtain ⟨_, hres, hr⟩ := Option.bind_eq_some.1 hr
    exact switch (by exact hp _) hres hr

/-- Delivering a result takes it from the finished thread and returns it on the waiting one,
both keeping their open lists. -/
theorem changes_deliver {top res : ThreadId} (hd : deliver a top res = some a') :
    ReflTransGen Arena.Change a a' := by
  simp only [deliver, Option.bind_eq_bind] at hd
  obtain ⟨mode, -, hd⟩ := Option.bind_eq_some.1 hd
  by_cases hm : mode = .waiting
  · rw [if_pos hm] at hd
    split at hd
    · by_cases hres : res = top
      · rw [if_pos hres] at hd
        cases hd
        exact .single (.keep rfl)
      rw [if_neg hres] at hd
      obtain ⟨_, -, hd⟩ := Option.bind_eq_some.1 hd
      have htop : ∀ rs, (a.setThread res rs).threads top = a.threads top :=
        fun _ => Arena.setThread_threads_ne _ _ (Ne.symm hres)
      split at hd
      · obtain ⟨⟨_, rs⟩, ht, hd⟩ := Option.bind_eq_some.1 hd
        have h₁ : Arena.Change a (a.setThread res rs) :=
          .keep (ThreadState.openUpvalues_of_takeResult ht)
        split at hd
        · obtain ⟨_, hs', ⟨⟩⟩ := Option.bind_eq_some.1 hd
          exact .tail (.single h₁)
            (.keep ((ThreadState.openUpvalues_of_returnTo hs').trans (by rw [htop])))
        · cases hd
          exact .tail (.single h₁) (.keep (by rw [htop]))
      · cases hd
      · cases hd
        exact .single (.keep rfl)
    · cases hd
  · rw [if_neg hm] at hd
    cases hd
    exact .single (.keep rfl)

theorem changes_dispatch {host : Host} {r : Round} {top : ThreadId}
    (hd : dispatch host r a ts top = some (a', ts')) : ReflTransGen Arena.Change a a' := by
  dsimp only [dispatch, Option.bind_eq_bind] at hd
  split at hd
  · split at hd
    · exact changes_callbackRet hd rfl
    · cases hd; exact .single (.keep rfl)
  · split at hd
    · exact changes_callbackRet hd rfl
    · cases hd; exact .single (.keep rfl)
  · obtain ⟨⟨_, e⟩, hv, hd⟩ := Option.bind_eq_some.1 hd
    have h₁ := changes_runVm hv
    cases e <;> cases hd
    · exact h₁
    · exact h₁.tail (.keep rfl)
  · split at hd
    · obtain ⟨⟨_, _⟩, hc, ⟨⟩⟩ := Option.bind_eq_some.1 hd
      exact .single (.close ((ThreadState.closes_of_closeUpvalues hc).congr_right rfl))
    · split_ifs at hd
      cases hd
      exact .single (.keep rfl)
    · cases hd; exact .single (.keep rfl)
    · cases hd
  · cases hd

theorem changes_popFinished {a₁ : Arena} {ts₁ : List ThreadId} {top : ThreadId}
    (hp : popFinished a ts = some (some (a₁, ts₁, top))) : ReflTransGen Arena.Change a a₁ := by
  rcases popFinished_cases hp with ⟨rfl, -⟩ | ⟨_, -, -, hd⟩
  · exact .refl
  · exact changes_deliver hd

/-- One round of `Executor::step` is a run of changes. -/
theorem changes_stepRound {host : Host} {r : Round}
    (hs : stepRound host r a ts = some (some (a', ts'))) : ReflTransGen Arena.Change a a' := by
  obtain ⟨p, hp, hs⟩ := Option.bind_eq_some.1 hs
  rcases p with _ | ⟨a₁, ts₁, top⟩
  · cases hs
  have h₁ := changes_popFinished hp
  obtain ⟨_, -, hs⟩ := Option.bind_eq_some.1 hs
  split_ifs at hs
  · obtain ⟨_, hd, ⟨⟩⟩ := Option.map_eq_some'.1 hs
    exact h₁.trans (changes_dispatch hd)
  · cases hs; exact h₁

theorem changes_start {t : ThreadId} {f : Function} {args : List Value}
    (hs : start a t f args = some (a', ts)) : ReflTransGen Arena.Change a a' := by
  obtain ⟨s, hr, rfl, -⟩ := start_cases hs
  exact .single (.keep (Thread.openUpvalues_of_start hr))

/-- `Executor::restart` resets the lowest thread, which closes its upvalues, and starts it again,
which keeps its now empty list. -/
theorem changes_restart {f : Function} {args : List Value}
    (hs : restart a ts f args = some (a', ts')) : ReflTransGen Arena.Change a a' := by
  obtain ⟨t, s, cells, s', -, hr, hst, rfl, -⟩ := restart_cases hs
  have hk : Arena.Change { a.setThread t s with cells }
      (({ a.setThread t s with cells } : Arena).setThread t s') :=
    .keep (by simpa using Thread.openUpvalues_of_start hst)
  have he : ({ a.setThread t s with cells } : Arena).setThread t s' =
      { a.setThread t s' with cells } := by
    simp [Arena.setThread]
  exact .tail (.single (.close (Thread.closes_of_reset hr).1)) (he ▸ hk)

end Executor

-- ════════════════════════════════════════════════════════════════════════
-- The embedder's steps
-- ════════════════════════════════════════════════════════════════════════

namespace System

/-- One operation of the embedder. The operations of `Thread` act on any thread, one that waits
beneath the top of an executor included: `Thread::reset` works in every mode but `Running`, and
`Executor::step` meets the thread so changed in the branch its source calls "Shenanigans".
`Executor::reset` and `Executor::restart` act on an executor that has been made. -/
inductive Step (host : Host) (window : Bool) : System → System → Prop where
  | threadStart {sys : System} {s : ThreadState} (t : ThreadId) (f : Function)
      (args : List Value) : Thread.start (sys.arena.threads t) f args = some (.ok s) →
      Step host window sys (sys.setThread t s)
  | threadStartSuspended {sys : System} {s : ThreadState} (t : ThreadId) (f : Function) :
      Thread.startSuspended (sys.arena.threads t) f = some (.ok s) →
      Step host window sys (sys.setThread t s)
  | threadResume {sys : System} {s : ThreadState} (t : ThreadId) (args : List Value) :
      Thread.resume (sys.arena.threads t) args = some (.ok s) →
      Step host window sys (sys.setThread t s)
  | threadResumeErr {sys : System} {s : ThreadState} (t : ThreadId) (err : Error) :
      Thread.resumeErr (sys.arena.threads t) err = some (.ok s) →
      Step host window sys (sys.setThread t s)
  | threadTakeResult {sys : System} {s : ThreadState} {res : Except Error (List Value)}
      (t : ThreadId) : Thread.takeResult (sys.arena.threads t) = some (.ok (res, s)) →
      Step host window sys (sys.setThread t s)
  | threadReset {sys : System} {s : ThreadState} {cells : Cells} (t : ThreadId) :
      Thread.reset t (sys.arena.threads t) sys.arena.cells = some (s, cells) →
      Step host window sys ⟨{ sys.arena.setThread t s with cells }, sys.executors⟩
  | run {sys : System} (i : ExecutorId) (t : ThreadId) : sys.executors i = [] →
      Step host window sys ⟨sys.arena, Function.update sys.executors i (Executor.run t)⟩
  | start {sys : System} {a : Arena} {ts : List ThreadId} (i : ExecutorId) (t : ThreadId)
      (f : Function) (args : List Value) : sys.executors i = [] →
      Executor.start sys.arena t f args = some (a, ts) →
      Step host window sys ⟨a, Function.update sys.executors i ts⟩
  | round {sys : System} {a : Arena} {ts : List ThreadId} (i : ExecutorId) (r : Round) :
      (window → Executor.RoundInWindow host r sys.arena (sys.executors i)) →
      Executor.stepRound host r sys.arena (sys.executors i) = some (some (a, ts)) →
      Step host window sys ⟨a, Function.update sys.executors i ts⟩
  | reset {sys : System} (i : ExecutorId) (t : ThreadId) : sys.executors i ≠ [] →
      Step host window sys ⟨sys.arena, Function.update sys.executors i (Executor.reset t)⟩
  | restart {sys : System} {a : Arena} {ts : List ThreadId} (i : ExecutorId) (f : Function)
      (args : List Value) : Executor.restart sys.arena (sys.executors i) f args = some (a, ts) →
      Step host window sys ⟨a, Function.update sys.executors i ts⟩

/-- The states the embedder reaches by any run of its operations. -/
def Reaches (host : Host) (window : Bool) (sys : System) : Prop :=
  ReflTransGen (Step host window) init sys

variable {host : Host} {window : Bool} {sys sys' : System}

/-- An embedder that leaves waiting threads alone reaches states the embedder reaches. -/
theorem Reachable.reaches (h : Reachable host window sys) : Reaches host window sys := by
  induction h with
  | init => exact .refl
  | threadStart t f args _ _ hs ih => exact ih.tail (.threadStart t f args hs)
  | threadStartSuspended t f _ _ hs ih => exact ih.tail (.threadStartSuspended t f hs)
  | threadResume t args _ _ hs ih => exact ih.tail (.threadResume t args hs)
  | threadResumeErr t err _ _ hs ih => exact ih.tail (.threadResumeErr t err hs)
  | threadTakeResult t _ _ hs ih => exact ih.tail (.threadTakeResult t hs)
  | threadReset t _ _ hs ih => exact ih.tail (.threadReset t hs)
  | run i t _ he ih => exact ih.tail (.run i t he)
  | start i t f args _ he hs ih => exact ih.tail (.start i t f args he hs)
  | round i r _ hw hs ih => exact ih.tail (.round i r hw hs)

/-- `Executor::take_result` takes the result of the executor's one thread as
`Thread::take_result` does, so it reaches no state the embedder's steps do not. -/
theorem Reaches.executorTakeResult (hs : Reaches host window sys) {i : ExecutorId}
    {r : Except BadThreadMode (Except Error (List Value))} {a : Arena}
    (h : Executor.takeResult sys.arena (sys.executors i) = some (r, a)) :
    Reaches host window ⟨a, sys.executors⟩ := by
  unfold Executor.takeResult at h
  split_ifs at h
  · cases h; exact hs
  obtain ⟨t, -, h⟩ := Option.bind_eq_some.1 h
  obtain ⟨res, hres, h⟩ := Option.bind_eq_some.1 h
  rcases res with _ | ⟨_, s⟩
  · cases h; exact hs
  · cases h; exact hs.tail (.threadTakeResult t hres)

/-- `Executor::resume` resumes the executor's one thread as `Thread::resume` does. -/
theorem Reaches.executorResume (hs : Reaches host window sys) {i : ExecutorId}
    {args : List Value} {r : Except BadThreadMode Unit} {a : Arena}
    (h : Executor.resume sys.arena (sys.executors i) args = some (r, a)) :
    Reaches host window ⟨a, sys.executors⟩ := by
  unfold Executor.resume at h
  split_ifs at h
  · cases h; exact hs
  obtain ⟨t, -, h⟩ := Option.bind_eq_some.1 h
  obtain ⟨res, hres, h⟩ := Option.bind_eq_some.1 h
  rcases res with _ | s
  · cases h; exact hs
  · cases h; exact hs.tail (.threadResume t args hres)

/-- `Executor::resume_err` raises on the executor's one thread as `Thread::resume_err` does. -/
theorem Reaches.executorResumeErr (hs : Reaches host window sys) {i : ExecutorId} {err : Error}
    {r : Except BadThreadMode Unit} {a : Arena}
    (h : Executor.resumeErr sys.arena (sys.executors i) err = some (r, a)) :
    Reaches host window ⟨a, sys.executors⟩ := by
  unfold Executor.resumeErr at h
  split_ifs at h
  · cases h; exact hs
  obtain ⟨t, -, h⟩ := Option.bind_eq_some.1 h
  obtain ⟨res, hres, h⟩ := Option.bind_eq_some.1 h
  rcases res with _ | s
  · cases h; exact hs
  · cases h; exact hs.tail (.threadResumeErr t err hres)

/-- Every operation of the embedder is a run of changes to the arena. -/
theorem Step.changes (h : Step host window sys sys') :
    ReflTransGen Arena.Change sys.arena sys'.arena := by
  cases h with
  | threadStart t f args hs => exact .single (.keep (Thread.openUpvalues_of_start hs))
  | threadStartSuspended t f hs => exact .single (.keep (Thread.openUpvalues_of_startSuspended hs))
  | threadResume t args hs => exact .single (.keep (Thread.openUpvalues_of_resume hs))
  | threadResumeErr t err hs => exact .single (.keep (Thread.openUpvalues_of_resumeErr hs))
  | threadTakeResult t hs => exact .single (.keep (Thread.openUpvalues_of_takeResult hs))
  | threadReset t hs => exact .single (.close (Thread.closes_of_reset hs).1)
  | run i t _ | reset i t _ => exact .refl
  | start i t f args _ hs => exact Executor.changes_start hs
  | round i r _ hs => exact Executor.changes_stepRound hs
  | restart i f args hs => exact Executor.changes_restart hs

/-- So is every run of them. -/
theorem changes_of_steps (h : ReflTransGen (Step host window) sys sys') :
    ReflTransGen Arena.Change sys.arena sys'.arena := by
  induction h with
  | refl => exact .refl
  | tail _ hs ih => exact ih.trans hs.changes

/-- What holds of the initial arena and every change keeps holds of the arena of every state the
embedder reaches. -/
theorem Reaches.arena_of_changes (P : Arena → Prop) (h0 : P System.init.arena)
    (hP : ∀ {a a'}, Arena.Change a a' → P a → P a') (h : Reaches host window sys) :
    P sys.arena :=
  Arena.changes_preserves P hP (changes_of_steps h) h0

end System

end Piccolo
