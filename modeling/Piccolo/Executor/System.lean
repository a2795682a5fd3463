import Piccolo.Executor.Shape
import Piccolo.Thread.FrameSpec

/-!
# Every thread of a running system keeps the shape of its frames

The embedder makes threads and executors and drives them. `System.Reachable` is the embedder that
applies the public operations of `Thread` only to a thread that no executor holds waiting beneath
its top, and also uses `Executor::run` and `Executor::start` to make an executor and rounds of
`Executor::step` on any executor. Every state reached so has every thread of the right `Shape`,
hence `FrameStackWF`, thread stacks whose threads beneath the top wait, and no thread waiting in two
executors. The general embedder, which may touch a waiting thread, is `System.Reaches` in
`Executor.Changes`.

## Main definitions

- `System` — the arena and the thread stack of every executor
- `System.Reachable` — the states the guarded embedder reaches
- `System.WF` — the invariant: the shapes, the thread stacks, and no thread waiting in two
  executors

## Main results

- `System.Reachable.wf` — every reachable state satisfies the invariant
- `frameStackWF_of_reachable`
- `executors_of_reachable` — the thread stacks of all executors, and no thread waiting in two
- `frames_of_round_reachable` — a round of one executor leaves the waiting threads of every other
  executor alone

## Design notes

Executors are numbered, and an executor whose thread stack is empty has not been made: a made one
never has an empty stack. `Executor::step` is a run of rounds, so the states it passes through are
those `round` reaches. A round on one executor changes the frames of its own threads and of a
suspended thread it resumes only, so it keeps the thread stacks of the others. A `Thread::reset` of
a thread waiting beneath an executor's top breaks the last two results; `Reachable` rules it out.
-/

namespace Piccolo

namespace Executor

-- ════════════════════════════════════════════════════════════════════════
-- What a round touches
-- ════════════════════════════════════════════════════════════════════════

/-- What `callback_ret` can do: store a new state of `self`, and also of a suspended thread it
resumed, which then runs on top. -/
theorem callbackRet_cases {self : ThreadId} {a a' : Arena} {ts ts' : List ThreadId}
    {s : ThreadState} {bottom : Nat} {ret : CallbackReturn}
    (hr : callbackRet self a ts s bottom ret = some (a', ts')) :
    (∃ k, a' = a.setThread self k ∧ ts' = ts) ∨
      ∃ k t st ts'', t ≠ self ∧ (a.threads t).mode = some .suspended ∧
        a' = (a.setThread self k).setThread t st ∧ ts' = t :: ts'' ∧ (ts'' = ts.tail ∨ ts'' = ts) := by
  have switch : ∀ {t args st} {k : ThreadState} {ts'' : List ThreadId},
      resumeFrom self a t args = some st → (ts'' = ts.tail ∨ ts'' = ts) →
      (match st with
        | .error e => some (a.setThread self { k with frames := .error e.toError :: k.frames }, ts)
        | .ok ts => some ((a.setThread self k).setThread t ts, t :: ts'')) = some (a', ts') →
      (∃ k, a' = a.setThread self k ∧ ts' = ts) ∨
        ∃ k t st ts'', t ≠ self ∧ (a.threads t).mode = some .suspended ∧
          a' = (a.setThread self k).setThread t st ∧ ts' = t :: ts'' ∧
          (ts'' = ts.tail ∨ ts'' = ts) := by
    intro t args st k ts'' hres hts hm
    cases st with
    | error e => cases hm; exact .inl ⟨_, rfl, rfl⟩
    | ok st =>
      cases hm
      obtain ⟨hself, hmode⟩ := mode_of_resumeFrom hres
      exact .inr ⟨k, t, st, ts'', hself, hmode, rfl, rfl, hts⟩
  cases ret with
  | «return» =>
    obtain ⟨_, -, hr⟩ := Option.bind_eq_some.1 hr
    cases hr; exact .inl ⟨_, rfl, rfl⟩
  | sequence seq => cases hr; exact .inl ⟨_, rfl, rfl⟩
  | call f andThen =>
    obtain ⟨_, -, hr⟩ := Option.bind_eq_some.1 hr
    cases hr; exact .inl ⟨_, rfl, rfl⟩
  | yield toThread andThen =>
    cases toThread with
    | none => cases hr; exact .inl ⟨_, rfl, rfl⟩
    | some t =>
      obtain ⟨_, -, hr⟩ := Option.bind_eq_some.1 hr
      obtain ⟨_, hres, hr⟩ := Option.bind_eq_some.1 hr
      exact switch hres (.inl rfl) hr
  | resume t andThen =>
    obtain ⟨_, -, hr⟩ := Option.bind_eq_some.1 hr
    obtain ⟨_, hres, hr⟩ := Option.bind_eq_some.1 hr
    exact switch hres (by split_ifs <;> simp) hr

/-- Delivering a result takes it from the finished thread only when it has one. -/
theorem threads_of_deliver_res {a a' : Arena} {top res : ThreadId}
    (h : deliver a top res = some a') (hne : res ≠ top)
    (hm : (a.threads res).mode ≠ some .result) : a'.threads res = a.threads res := by
  simp only [deliver, Option.bind_eq_bind, if_neg hne] at h
  obtain ⟨_, -, h⟩ := Option.bind_eq_some.1 h
  split_ifs at h
  · split at h
    · obtain ⟨m, hm', h⟩ := Option.bind_eq_some.1 h
      split at h
      · exact absurd hm' hm
      · cases h
      · cases h; simp [hne]
    · cases h
  · cases h; simp [hne]

/-- A round's dispatch changes the frames of its top thread and of a suspended thread it resumes
only. -/
theorem frames_of_dispatch {host : Host} {r : Round} {a a' : Arena} {ts ts' : List ThreadId}
    {top u : ThreadId} (hd : dispatch host r a ts top = some (a', ts')) (hu : u ≠ top)
    (hm : (a.threads u).mode ≠ some .suspended) :
    (a'.threads u).frames = (a.threads u).frames := by
  have cb : ∀ {s bottom ret}, callbackRet top a ts s bottom ret = some (a', ts') →
      (a'.threads u).frames = (a.threads u).frames := fun hr => by
    rcases callbackRet_cases hr with ⟨k, rfl, -⟩ | ⟨k, t, st, _, -, ht, rfl, -⟩
    · simp [hu]
    · have hut : u ≠ t := fun e => hm (e ▸ ht)
      simp [hu, hut]
  dsimp only [dispatch, Option.bind_eq_bind] at hd
  split at hd
  · split at hd
    · exact cb hd
    · cases hd; simp [hu]
  · split at hd
    · exact cb hd
    · cases hd; simp [hu]
  · obtain ⟨⟨a₁, e⟩, hrun, hd⟩ := Option.bind_eq_some.1 hd
    split at hd <;> cases hd
    · simp [hu, frames_of_runVm hrun hu]
    · exact frames_of_runVm hrun hu
  · split at hd
    · obtain ⟨_, -, hd⟩ := Option.bind_eq_some.1 hd
      cases hd
      exact congrArg ThreadState.frames (Arena.setThread_threads_ne _ _ hu)
    · split_ifs at hd; cases hd; simp [hu]
    · cases hd; simp [hu]
    · cases hd
  · cases hd

/-- A dispatch leaves beneath the top only threads that were beneath it, or the top itself, now
waiting on a thread it resumed. -/
theorem dispatch_tail {host : Host} {r : Round} {a a' : Arena} {top : ThreadId}
    {rest ts' : List ThreadId} (hd : dispatch host r a (top :: rest) top = some (a', ts')) :
    ∀ u ∈ ts'.tail, u ∈ rest ∨ u = top := by
  have same : ts' = top :: rest → ∀ u ∈ ts'.tail, u ∈ rest ∨ u = top := by
    rintro rfl u hu; exact .inl hu
  have cb : ∀ {s bottom ret}, callbackRet top a (top :: rest) s bottom ret = some (a', ts') →
      ∀ u ∈ ts'.tail, u ∈ rest ∨ u = top := fun hr => by
    rcases callbackRet_cases hr with ⟨-, -, rfl⟩ | ⟨-, -, -, _, -, -, -, rfl, rfl | rfl⟩
    · exact same rfl
    · intro u hu; exact .inl hu
    · intro u hu; exact (List.mem_cons.1 hu).symm
  dsimp only [dispatch, Option.bind_eq_bind] at hd
  split at hd
  · split at hd
    · exact cb hd
    · cases hd; exact same rfl
  · split at hd
    · exact cb hd
    · cases hd; exact same rfl
  · obtain ⟨⟨a₁, e⟩, -, hd⟩ := Option.bind_eq_some.1 hd
    split at hd <;> cases hd <;> exact same rfl
  · split at hd
    · obtain ⟨_, -, hd⟩ := Option.bind_eq_some.1 hd
      cases hd; exact same rfl
    · split_ifs at hd; cases hd; exact same rfl
    · cases hd; exact same rfl
    · cases hd
  · cases hd

/-- A round changes the frames of no thread that waits elsewhere than beneath its own top. -/
theorem frames_of_stepRound {host : Host} {r : Round} {a a' : Arena} {ts ts' : List ThreadId}
    (hs : stepRound host r a ts = some (some (a', ts'))) {u : ThreadId}
    (hw : (a.threads u).frames.head? = some .waitThread) (hu : u ∉ ts.tail) :
    (a'.threads u).frames = (a.threads u).frames := by
  have hwait := mode_of_waitThread hw
  obtain ⟨p, hp, hs⟩ := Option.bind_eq_some.1 hs
  rcases p with _ | ⟨a₁, ts₁, top⟩
  · cases hs
  have h₁ : a₁.threads u = a.threads u := by
    rcases popFinished_cases hp with ⟨rfl, -⟩ | ⟨old, rfl, htop, hdel⟩
    · rfl
    · have hne : u ≠ top := fun e => hu (e ▸ List.mem_of_mem_head? htop)
      by_cases hold : u = old
      · subst hold
        exact threads_of_deliver_res hdel hne (by rw [hwait]; decide)
      · exact threads_of_deliver hdel hne hold
  obtain ⟨m, hm, hs⟩ := Option.bind_eq_some.1 hs
  split_ifs at hs with hn
  · obtain ⟨_, hd, hs⟩ := Option.map_eq_some'.1 hs
    cases hs
    have hu₁ : (a₁.threads u).mode = some .waiting := by rw [h₁]; exact hwait
    have hne : u ≠ top := fun e => by subst e; rw [hu₁, hn] at hm; cases hm
    rw [frames_of_dispatch hd hne (by rw [hu₁]; decide), h₁]
  · cases hs; rw [h₁]

/-- After a round, the threads beneath the top were beneath it before, or were the running top. -/
theorem stepRound_tail {host : Host} {r : Round} {a a' : Arena} {ts ts' : List ThreadId}
    (hwf : StackWF a.threads ts) (hs : stepRound host r a ts = some (some (a', ts'))) :
    ∀ u ∈ ts'.tail, u ∈ ts.tail ∨ ts.head? = some u ∧ (a.threads u).mode = some .normal := by
  obtain ⟨p, hp, hs⟩ := Option.bind_eq_some.1 hs
  rcases p with _ | ⟨a₁, ts₁, top⟩
  · cases hs
  obtain ⟨rest, rfl, -⟩ := popFinished_stackWF hwf hp
  have hpop : (top ∈ ts.tail ∨ ts.head? = some top ∧ (a.threads top).mode = some .normal) ∧
      ∀ u ∈ rest, u ∈ ts.tail := by
    rcases popFinished_cases hp with ⟨-, rfl, -, hm⟩ | ⟨old, rfl, -, -⟩
    · exact ⟨.inr ⟨rfl, hm⟩, fun u hu => hu⟩
    · exact ⟨.inl (List.mem_cons_self _ _), fun u hu => List.mem_cons_of_mem _ hu⟩
  intro u hu
  obtain ⟨m, -, hs⟩ := Option.bind_eq_some.1 hs
  split_ifs at hs
  · obtain ⟨_, hd, hs⟩ := Option.map_eq_some'.1 hs
    cases hs
    rcases dispatch_tail hd u hu with h | rfl
    exacts [.inl (hpop.2 u h), hpop.1]
  · cases hs; exact .inl (hpop.2 u hu)

/-- A thread stack keeps its shape while the threads beneath its top keep their frames. -/
theorem StackWF.of_frames_tail {threads threads' : ThreadId → ThreadState} {ts : List ThreadId}
    (h : StackWF threads ts) (hr : ∀ u ∈ ts.tail, (threads' u).frames = (threads u).frames) :
    StackWF threads' ts :=
  ⟨h.ne_nil, h.nodup, fun u hu => (hr u hu).symm ▸ h.waiting u hu⟩

end Executor

-- ════════════════════════════════════════════════════════════════════════
-- The system
-- ════════════════════════════════════════════════════════════════════════

/-- An executor's number. -/
abbrev ExecutorId := Nat

/-- The arena and the thread stack of every executor, top first. -/
structure System where
  arena : Arena
  executors : ExecutorId → List ThreadId

namespace System

/-- No thread touched and no executor made: every thread in the state of `Thread::new`. -/
def init : System := ⟨⟨fun _ => .empty, ⟨fun _ => .closed .nil, 0⟩⟩, fun _ => []⟩

/-- Thread `t` waits beneath the top of some executor's thread stack. -/
def Waiting (sys : System) (t : ThreadId) : Prop :=
  ∃ i, t ∈ (sys.executors i).tail

/-- Store the state of thread `t`. -/
def setThread (sys : System) (t : ThreadId) (s : ThreadState) : System :=
  { sys with arena := sys.arena.setThread t s }

/-- The states the embedder reaches. The operations of `Thread` act on a thread that waits in no
executor; with `window`, every round's batch of `run_vm` names registers inside the window. -/
inductive Reachable (host : Host) (window : Bool) : System → Prop where
  | init : Reachable host window init
  | threadStart {sys : System} {s : ThreadState} (t : ThreadId) (f : Function)
      (args : List Value) : Reachable host window sys → ¬ sys.Waiting t →
      Thread.start (sys.arena.threads t) f args = some (.ok s) →
      Reachable host window (sys.setThread t s)
  | threadStartSuspended {sys : System} {s : ThreadState} (t : ThreadId) (f : Function) :
      Reachable host window sys → ¬ sys.Waiting t →
      Thread.startSuspended (sys.arena.threads t) f = some (.ok s) →
      Reachable host window (sys.setThread t s)
  | threadResume {sys : System} {s : ThreadState} (t : ThreadId) (args : List Value) :
      Reachable host window sys → ¬ sys.Waiting t →
      Thread.resume (sys.arena.threads t) args = some (.ok s) →
      Reachable host window (sys.setThread t s)
  | threadResumeErr {sys : System} {s : ThreadState} (t : ThreadId) (err : Error) :
      Reachable host window sys → ¬ sys.Waiting t →
      Thread.resumeErr (sys.arena.threads t) err = some (.ok s) →
      Reachable host window (sys.setThread t s)
  | threadTakeResult {sys : System} {s : ThreadState} {res : Except Error (List Value)}
      (t : ThreadId) : Reachable host window sys → ¬ sys.Waiting t →
      Thread.takeResult (sys.arena.threads t) = some (.ok (res, s)) →
      Reachable host window (sys.setThread t s)
  | threadReset {sys : System} {s : ThreadState} {cells : Cells} (t : ThreadId) :
      Reachable host window sys → ¬ sys.Waiting t →
      Thread.reset t (sys.arena.threads t) sys.arena.cells = some (s, cells) →
      Reachable host window ⟨{ sys.arena.setThread t s with cells }, sys.executors⟩
  | run {sys : System} (i : ExecutorId) (t : ThreadId) : Reachable host window sys →
      sys.executors i = [] →
      Reachable host window ⟨sys.arena, Function.update sys.executors i (Executor.run t)⟩
  | start {sys : System} {a : Arena} {ts : List ThreadId} (i : ExecutorId) (t : ThreadId)
      (f : Function) (args : List Value) : Reachable host window sys → sys.executors i = [] →
      Executor.start sys.arena t f args = some (a, ts) →
      Reachable host window ⟨a, Function.update sys.executors i ts⟩
  | round {sys : System} {a : Arena} {ts : List ThreadId} (i : ExecutorId) (r : Round) :
      Reachable host window sys →
      (window → Executor.RoundInWindow host r sys.arena (sys.executors i)) →
      Executor.stepRound host r sys.arena (sys.executors i) = some (some (a, ts)) →
      Reachable host window ⟨a, Function.update sys.executors i ts⟩

/-- The invariant of a reachable system: every thread has its shape, every made executor a thread
stack of the right shape, and no thread waits in two executors. -/
structure WF (upper : Bool) (sys : System) : Prop where
  shaped : sys.arena.Shaped upper
  threadStacks : ∀ i, sys.executors i ≠ [] → Executor.StackWF sys.arena.threads (sys.executors i)
  disjoint : ∀ i j t, t ∈ (sys.executors i).tail → t ∈ (sys.executors j).tail → i = j

variable {upper : Bool}

theorem wf_init : init.WF upper :=
  ⟨fun _ => rfl, fun _ h => (h rfl).elim, fun _ _ _ h => (List.not_mem_nil _ h).elim⟩

/-- A thread that waits in no executor takes a new state of its shape. -/
theorem WF.setThread {sys : System} {t : ThreadId} {s : ThreadState} (h : sys.WF upper)
    (ht : ¬ sys.Waiting t) (hs : s.Shaped upper) : (sys.setThread t s).WF upper := by
  refine ⟨Arena.shaped_setThread (fun u _ => h.shaped u) hs, fun i hi => ?_, h.disjoint⟩
  refine (h.threadStacks i hi).of_frames_tail fun u hu => ?_
  have hut : u ≠ t := fun e => ht ⟨i, e ▸ hu⟩
  exact congrArg ThreadState.frames (Arena.setThread_threads_ne _ _ hut)

/-- A thread on a `WaitThread` frame is not stopped, suspended, or finished. -/
theorem WF.not_waiting {sys : System} {t : ThreadId} {m : ThreadMode} (h : sys.WF upper)
    (hm : (sys.arena.threads t).mode = some m) (hne : m ≠ .waiting) : ¬ sys.Waiting t :=
  fun ⟨i, hi⟩ => (h.threadStacks i (List.ne_nil_of_mem (List.mem_of_mem_tail hi))).not_mem_tail hm hne hi

/-- The invariant reads the threads and the thread stacks only. -/
theorem WF.congr {sys sys' : System} (h : sys.WF upper)
    (ht : sys'.arena.threads = sys.arena.threads) (he : sys'.executors = sys.executors) :
    sys'.WF upper := by
  obtain ⟨⟨threads, cells⟩, executors⟩ := sys'
  dsimp only at ht he
  subst ht he
  exact ⟨h.1, h.2, h.3⟩

/-- A new executor running `t` alone keeps the invariant. -/
theorem WF.addExecutor {sys : System} {i : ExecutorId} (t : ThreadId) (h : sys.WF upper)
    (hi : sys.executors i = []) :
    (⟨sys.arena, Function.update sys.executors i [t]⟩ : System).WF upper := by
  have key : ∀ x u, u ∈ (Function.update sys.executors i [t] x).tail →
      u ∈ (sys.executors x).tail := fun x u hx => by
    by_cases hxi : x = i
    · subst hxi; simp at hx
    · rwa [Function.update_noteq hxi] at hx
  refine ⟨h.shaped, fun j hj => ?_, fun j k u hj hk => h.disjoint j k u (key j u hj) (key k u hk)⟩
  dsimp only at hj ⊢
  by_cases hji : j = i
  · subst hji; rw [Function.update_same]; exact Executor.StackWF.singleton _ t
  · rw [Function.update_noteq hji] at hj ⊢; exact h.threadStacks j hj

/-- A round on executor `i` keeps the invariant: the threads waiting in the other executors keep
their frames, and a thread it leaves waiting beneath its top waited there before or was its
running top. -/
theorem WF.round {host : Host} {sys : System} {r : Round} {a : Arena} {ts : List ThreadId}
    {i : ExecutorId} (h : sys.WF upper)
    (hw : upper → Executor.RoundInWindow host r sys.arena (sys.executors i))
    (hs : Executor.stepRound host r sys.arena (sys.executors i) = some (some (a, ts))) :
    (⟨a, Function.update sys.executors i ts⟩ : System).WF upper := by
  have hne : sys.executors i ≠ [] := fun he => by rw [he] at hs; cases hs
  have hwf := h.threadStacks i hne
  have hwait : ∀ j u, u ∈ (sys.executors j).tail →
      (sys.arena.threads u).frames.head? = some .waitThread := fun j u hu =>
    (h.threadStacks j (List.ne_nil_of_mem (List.mem_of_mem_tail hu))).waiting u hu
  have hnew : ∀ u ∈ ts.tail, ∀ j, j ≠ i → u ∉ (sys.executors j).tail := fun u hu j hj huj => by
    rcases Executor.stepRound_tail hwf hs u hu with hi | ⟨-, hm⟩
    · exact hj (h.disjoint j i u huj hi)
    · rw [mode_of_waitThread (hwait j u huj)] at hm; cases hm
  refine ⟨Executor.shaped_stepRound h.shaped hwf hw hs, fun j hj => ?_, fun j k u hj hk => ?_⟩
  all_goals dsimp only at hj ⊢
  · by_cases hji : j = i
    · subst hji
      rw [Function.update_same] at hj ⊢
      exact Executor.stepRound_stackWF hwf hs
    · rw [Function.update_noteq hji] at hj ⊢
      exact (h.threadStacks j hj).of_frames_tail fun u hu =>
        Executor.frames_of_stepRound hs (hwait j u hu) fun hi => hji (h.disjoint j i u hu hi)
  · dsimp only at hk
    by_cases hji : j = i <;> by_cases hki : k = i
    · rw [hji, hki]
    · subst hji
      rw [Function.update_same] at hj
      rw [Function.update_noteq hki] at hk
      exact absurd hk (hnew u hj k hki)
    · subst hki
      rw [Function.update_same] at hk
      rw [Function.update_noteq hji] at hj
      exact absurd hj (hnew u hk j hji)
    · rw [Function.update_noteq hji] at hj
      rw [Function.update_noteq hki] at hk
      exact h.disjoint j k u hj hk

/-- Every state the embedder reaches satisfies the invariant, for `upper` whenever every round
names registers inside the window. -/
theorem Reachable.wf {host : Host} {window : Bool} {sys : System}
    (h : Reachable host window sys) : sys.WF window := by
  induction h with
  | init => exact wf_init
  | threadStart t f args _ hw hs ih => exact ih.setThread hw (shaped_start hs)
  | threadStartSuspended t f _ hw hs ih => exact ih.setThread hw (shaped_startSuspended hs)
  | threadResume t args _ hw hs ih => exact ih.setThread hw (shaped_resume (ih.shaped t) hs)
  | threadResumeErr t err _ hw hs ih => exact ih.setThread hw (shaped_resumeErr (ih.shaped t) hs)
  | threadTakeResult t _ hw hs ih =>
    exact ih.setThread hw (shaped_thread_takeResult (ih.shaped t) hs)
  | threadReset t _ hw hs ih => exact (ih.setThread hw (shaped_reset hs)).congr rfl rfl
  | run i t _ hi ih => exact ih.addExecutor t hi
  | start i t f args _ hi hs ih =>
    obtain ⟨s, hr, rfl, rfl⟩ := Executor.start_cases hs
    exact (ih.setThread (ih.not_waiting (Thread.mode_of_start hr) (by decide))
      (shaped_start hr)).addExecutor t hi
  | round i r _ hw hs ih => exact ih.round hw hs

end System

/-- Thread `0`, started by an executor on a closure with one register, after a round whose batch
of `run_vm` raises an error on the new frame: the frame `push_call` left has no
`expected_return`, and the `Error` frame lands directly on it. -/
theorem raise_on_new_frame_reachable (window : Bool) :
    ∃ sys : System, System.Reachable Host.functionsOnly window sys ∧
      (sys.arena.threads 0).frames = [.error (VMError.expectedVariableStack true).toError,
        .lua ⟨0, 1, false, 0, 1, none⟩] :=
  ⟨_, .round 0 ⟨[], .ok .return, [], .ok .pending, [.raise (.expectedVariableStack true)]⟩
    (.start 0 0 (.closure ⟨1, ⟨0, 1⟩⟩) [] .init rfl rfl) (fun _ => ⟨trivial, trivial⟩) rfl, rfl⟩

/-- An `Error` frame can sit directly on a Lua frame whose `expected_return` is `None`. -/
theorem error_on_lua_frame_without_return :
    ∃ sys : System, System.Reachable Host.functionsOnly false sys ∧
      ∃ e l, [Frame.error e, .lua l] <:+: (sys.arena.threads 0).frames ∧ l.expectedReturn = none :=
  let ⟨sys, h, hf⟩ := raise_on_new_frame_reachable false
  ⟨sys, h, _, _, by rw [hf], rfl⟩

/-- Every thread of every state the embedder reaches has a well-formed frame stack. -/
theorem frameStackWF_of_reachable {host : Host} {sys : System}
    (h : System.Reachable host false sys) (t : ThreadId) : FrameStackWF (sys.arena.threads t) :=
  frameStackWF_of_shape (h.wf.shaped t)

/-- The thread of `raise_on_new_frame_reachable` has a well-formed frame stack. -/
theorem frameStackWF_after_raise :
    ∃ sys : System, System.Reachable Host.functionsOnly false sys ∧
      FrameStackWF (sys.arena.threads 0) :=
  let ⟨sys, h, _⟩ := raise_on_new_frame_reachable false
  ⟨sys, h, frameStackWF_of_reachable h 0⟩

/-- In every reachable state, every executor made has a thread stack without repeats whose threads
beneath the top all wait on a `WaitThread` frame, and no thread waits in two executors. -/
theorem executors_of_reachable {host : Host} {window : Bool} {sys : System}
    (h : System.Reachable host window sys) :
    (∀ i, sys.executors i ≠ [] → (sys.executors i).Nodup ∧ ∀ t ∈ (sys.executors i).tail,
      (sys.arena.threads t).frames.head? = some .waitThread ∧
        (sys.arena.threads t).mode = some .waiting) ∧
    ∀ i j t, t ∈ (sys.executors i).tail → t ∈ (sys.executors j).tail → i = j :=
  have hw := h.wf
  ⟨fun i hi =>
    have hs := hw.threadStacks i hi
    ⟨hs.nodup, fun t ht => ⟨hs.waiting t ht, mode_of_waitThread (hs.waiting t ht)⟩⟩,
    hw.disjoint⟩

/-- Thread `1` started suspended, and executor `0` started on a callback of thread `0` that
resumes it: after one round thread `0` waits beneath thread `1`. -/
theorem executors_after_resume :
    ∃ sys : System, System.Reachable Host.functionsOnly false sys ∧ sys.executors 0 = [1, 0] ∧
      (∀ i, sys.executors i ≠ [] → (sys.executors i).Nodup ∧ ∀ t ∈ (sys.executors i).tail,
        (sys.arena.threads t).frames.head? = some .waitThread ∧
          (sys.arena.threads t).mode = some .waiting) ∧
      ∀ i j t, t ∈ (sys.executors i).tail → t ∈ (sys.executors j).tail → i = j := by
  have h : System.Reachable Host.functionsOnly false _ :=
    .round 0 ⟨[], .ok (.resume 1 (some 7)), [], .ok .pending, []⟩
      (.start 0 0 (.callback 0) [] (.threadStartSuspended 1 (.callback 1) .init
        (fun ⟨_, h⟩ => (List.not_mem_nil _ h).elim) rfl) rfl rfl) (fun h => by cases h) rfl
  exact ⟨_, h, rfl, executors_of_reachable h⟩

/-- In every reachable state, a round of one executor leaves alone the frames of every thread that
waits beneath the top of another executor: executors interleave without disturbing each other's
waiting threads. -/
theorem frames_of_round_reachable {host : Host} {window : Bool} {sys : System}
    (h : System.Reachable host window sys) {i j : ExecutorId} (hij : j ≠ i) {r : Round} {a : Arena}
    {ts : List ThreadId}
    (hs : Executor.stepRound host r sys.arena (sys.executors i) = some (some (a, ts)))
    {u : ThreadId} (hu : u ∈ (sys.executors j).tail) :
    (a.threads u).frames = (sys.arena.threads u).frames :=
  have hw := h.wf
  Executor.frames_of_stepRound hs
    ((hw.threadStacks j (List.ne_nil_of_mem (List.mem_of_mem_tail hu))).waiting u hu)
    fun hi => hij (hw.disjoint j i u hu hi)

/-- Thread `0` waits beneath thread `1` in executor `0` while executor `1` runs a closure on
thread `2` that returns at once: the round of executor `1` leaves thread `0` waiting. -/
theorem frames_of_round_two_executors :
    ∃ (sys : System) (a : Arena) (ts : List ThreadId),
      System.Reachable Host.functionsOnly false sys ∧ sys.executors 0 = [1, 0] ∧
      Executor.stepRound Host.functionsOnly
        ⟨[], .ok .return, [], .ok .pending, [.returnUpper 0 (.constant 0)]⟩ sys.arena
        (sys.executors 1) = some (some (a, ts)) ∧
      (a.threads 0).frames = (sys.arena.threads 0).frames := by
  have h : System.Reachable Host.functionsOnly false _ :=
    .start 1 2 (.closure ⟨1, ⟨0, 2⟩⟩) []
      (.round 0 ⟨[], .ok (.resume 1 (some 7)), [], .ok .pending, []⟩
        (.start 0 0 (.callback 0) [] (.threadStartSuspended 1 (.callback 1) .init
          (fun ⟨_, h⟩ => (List.not_mem_nil _ h).elim) rfl) rfl rfl) (fun h => by cases h) rfl)
      rfl rfl
  exact ⟨_, _, _, h, rfl, rfl, @frames_of_round_reachable _ _ _ h 1 0 (by decide)
    ⟨[], .ok .return, [], .ok .pending, [.returnUpper 0 (.constant 0)]⟩ _ _ rfl 0
    (List.mem_singleton_self 0)⟩

end Piccolo
