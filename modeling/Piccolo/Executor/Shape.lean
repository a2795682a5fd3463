import Piccolo.Executor.ThreadStack
import Piccolo.Thread.ShapeLua

/-!
# One round of `Executor::step` keeps every thread's shape

A round runs a batch of `run_vm`, a callback or a sequence and acts on what it returned, takes one
step of error unwinding, or delivers a finished thread's result. Each keeps `Shape` of every thread
of the arena, provided the thread stack has waiting threads beneath its top, and, for `upper`,
that the batch of `run_vm` names registers inside the window.

## Main definitions

- `VmOp.InWindow` — the register operands of a call lie inside the caller's window
- `VmInWindow`, `Executor.RoundInWindow` — every operation of a round's batch does
- `ShapeBound` — what the lemmas about a round need of a property of threads
- `Arena.Shaped` — every thread has its shape

## Main results

- `Executor.bound_stepRound` — a round keeps any property `ShapeBound` admits, when the property
  admits an `Error` frame on the thread beneath the top if that thread does not wait
- `Executor.shaped_stepRound` — a round keeps the shape of every thread

## Design notes

A round reads the frames of three threads only: its top, the finished thread it pops, and a
suspended thread it resumes; every other thread sees at most a write of its stack through an open
upvalue. So the lemmas about a round hold for any property `Q` of threads that every thread of the
right shape has, that gives the shape back to a thread whose top is not an `Error` frame over
other frames, and that such writes and steps of error unwinding keep (`ShapeBound`). `Shape` is
one. The other is the loose shape of `Executor.LooseShape`: the embedder may change a thread that
waits in an executor, and the round that delivers a result to it then pushes an `Error` frame on
whatever frames it holds.
-/

namespace Piccolo

-- ════════════════════════════════════════════════════════════════════════
-- Registers inside the window
-- ════════════════════════════════════════════════════════════════════════

/-- The register operands of `op` that place a new frame lie inside the window of the Lua frame
`l` it runs on: the function slot of `call_function`, the function and its arguments for
`call_function_keep`. -/
def VmOp.InWindow (l : LuaFields) : VmOp → Prop
  | .callFunction func _ _ => func < l.stackSize
  | .callFunctionKeep func argCount _ => func + argCount < l.stackSize
  | _ => True

/-- `op` keeps inside the window of the top Lua frame of `s`, if there is one. -/
def VmOp.InWindowOf (s : ThreadState) (op : VmOp) : Prop :=
  match s.frames with
  | .lua l :: _ => op.InWindow l
  | _ => True

/-- Every operation of a batch of `run_vm` on thread `self` keeps inside the window of the Lua
frame it runs on. -/
def VmInWindow (host : Host) (self : ThreadId) : List VmOp → Arena → Prop
  | [], _ => True
  | op :: ops, a => op.InWindowOf (a.threads self) ∧
    match op.exec host self a with
    | some (a', none) => VmInWindow host self ops a'
    | _ => True

/-- The batch of `run_vm` of round `r` keeps inside the window, on the thread the round runs. -/
def Executor.RoundInWindow (host : Host) (r : Round) (a : Arena) (threadStack : List ThreadId) :
    Prop :=
  match Executor.popFinished a threadStack with
  | some (some (a, _, top)) => VmInWindow host top r.vm a
  | _ => True

-- ════════════════════════════════════════════════════════════════════════
-- Error unwinding
-- ════════════════════════════════════════════════════════════════════════

variable {upper : Bool}

/-- An `Error` frame on a frame that is neither a Lua frame nor a sequence drops it. -/
theorem errorOn_tail {f : Frame} {rest : List Frame} {len : Nat} (h : ErrorOn upper (f :: rest) len)
    (hl : ∀ l, f ≠ .lua l) (hs : ∀ b seq pe, f ≠ .sequence b seq pe) :
    ErrorOn upper rest len := by
  cases f with
  | lua l => exact (hl l rfl).elim
  | sequence b seq pe => exact (hs b seq pe rfl).elim
  | yielded | waitThread => exact errorOn_of_below h.1 h.2 le_rfl
  | start _ | callback _ _ | result _ | error _ => exact h.elim

/-- A step of error unwinding keeps the shape. -/
theorem shaped_unwind {s s' : ThreadState} (h : s.Shaped upper) (hu : s.Unwind s') :
    s'.Shaped upper := by
  cases hu with
  | lua ups hf =>
    rw [ThreadState.Shaped, hf] at h
    obtain ⟨-, hbot, hbelow, hcallers⟩ := h
    exact errorOn_of_below hbelow hcallers (by simp only [List.length_take]; omega)
  | sequence hf => rw [ThreadState.Shaped, hf] at h; exact h
  | drop hf hl hs => rw [ThreadState.Shaped, hf] at h; exact errorOn_tail h hl hs

-- ════════════════════════════════════════════════════════════════════════
-- The properties of threads a round keeps
-- ════════════════════════════════════════════════════════════════════════

/-- What the lemmas about a round need of a property `Q` of threads: every thread of the right
shape has it; a thread that has it, with no `Error` frame over other frames on top, has its shape;
writing the stack without changing its height keeps it; and so does a step of error unwinding. -/
structure ShapeBound (upper : Bool) (Q : ThreadState → Prop) : Prop where
  of_shaped : ∀ {s : ThreadState}, s.Shaped upper → Q s
  shaped : ∀ {s : ThreadState}, Q s → (∀ e f rest, s.frames ≠ .error e :: f :: rest) →
    s.Shaped upper
  setStack : ∀ {s : ThreadState} {stack : List Value}, Q s → stack.length = s.stack.length →
    Q { s with stack }
  unwind : ∀ {s s' : ThreadState}, Q s → s.Unwind s' → Q s'

/-- The shape is such a property. -/
theorem shapeBound_shaped : ShapeBound upper (ThreadState.Shaped upper) :=
  ⟨id, fun h _ => h, shaped_setStack, shaped_unwind⟩

variable {Q : ThreadState → Prop}

/-- A thread that is not `Normal` has its shape. -/
theorem ShapeBound.shaped_of_mode (hQ : ShapeBound upper Q) {s : ThreadState} {m : ThreadMode}
    (h : Q s) (hm : s.mode = some m) (hn : m ≠ .normal) : s.Shaped upper :=
  hQ.shaped h (ThreadState.frames_ne_of_mode hm hn)

-- ════════════════════════════════════════════════════════════════════════
-- The shape of an arena
-- ════════════════════════════════════════════════════════════════════════

/-- Every thread of the arena has its shape. -/
def Arena.Shaped (upper : Bool) (a : Arena) : Prop :=
  ∀ t, (a.threads t).Shaped upper

/-- Thread `self` has the shape an operation that returned `e` leaves, and every other thread has
`Q`. -/
def Arena.ShapedAfter (Q : ThreadState → Prop) (upper : Bool) (self : ThreadId) (a : Arena)
    (e : Option VMError) : Prop :=
  (a.threads self).ShapedAfter upper e ∧ ∀ t, t ≠ self → Q (a.threads t)

namespace Arena

theorem ShapedAfter.bound (hQ : ShapeBound upper Q) {a : Arena} {self : ThreadId}
    (h : a.ShapedAfter Q upper self none) : ∀ t, Q (a.threads t) :=
  fun t => if ht : t = self then ht ▸ hQ.of_shaped h.1 else h.2 t ht

/-- Storing a thread with `Q` keeps `Q` of every thread. -/
theorem shaped_setThread {a : Arena} {self : ThreadId} {s : ThreadState}
    (ha : ∀ t, t ≠ self → Q (a.threads t)) (hs : Q s) : ∀ t, Q ((a.setThread self s).threads t) :=
  fun t => by
    by_cases ht : t = self
    · subst ht; simpa using hs
    · simpa [ht] using ha t ht

theorem shapedAfter_setThread {a : Arena} {self : ThreadId} {s : ThreadState}
    {e : Option VMError} (ha : ∀ t, t ≠ self → Q (a.threads t)) (hs : s.ShapedAfter upper e) :
    (a.setThread self s).ShapedAfter Q upper self e :=
  ⟨by simpa using hs, fun t ht => by simpa [ht] using ha t ht⟩

end Arena

-- ════════════════════════════════════════════════════════════════════════
-- `run_vm`
-- ════════════════════════════════════════════════════════════════════════

theorem VmOp.shapedAfter_exec (hQ : ShapeBound upper Q) {host : Host} {self : ThreadId}
    {a a' : Arena} {op : VmOp} {e : Option VMError} (ha : a.ShapedAfter Q upper self none)
    (hw : upper → op.InWindowOf (a.threads self))
    (h : op.exec host self a = some (a', e)) : a'.ShapedAfter Q upper self e := by
  have hwin : ∀ l rest, (a.threads self).frames = .lua l :: rest → upper → op.InWindow l :=
    fun l rest hf hu => by have := hw hu; rwa [InWindowOf, hf] at this
  obtain ⟨hself, hother⟩ := ha
  cases op <;> unfold VmOp.exec at h
  case setRegister reg v =>
    obtain ⟨_, -, h⟩ := Option.bind_eq_some.1 h
    obtain ⟨st, hst, ⟨⟩⟩ := Option.bind_eq_some.1 h
    exact Arena.shapedAfter_setThread hother (shaped_setStack hself (Vec.length_of_set hst))
  case setPc pc =>
    obtain ⟨l, rest, hf, ⟨⟩⟩ := topLua_bind_eq_some h
    unfold ThreadState.ShapedAfter ThreadState.Shaped at hself
    rw [hf] at hself
    exact Arena.shapedAfter_setThread hother (hself :)
  case openUpvalue reg =>
    obtain ⟨⟨_, s, _⟩, hs, ⟨⟩⟩ := Option.bind_eq_some.1 h
    exact Arena.shapedAfter_setThread hother (LuaRegisters.shaped_openUpvalue hself hs)
  case setUpvalue u v =>
    obtain ⟨⟨threads, _⟩, hs, ⟨⟩⟩ := Option.bind_eq_some.1 h
    refine ⟨LuaRegisters.shaped_setUpvalue hs hself, fun t ht => ?_⟩
    obtain ⟨_, hl, he⟩ := LuaRegisters.threads_of_setUpvalue hs t
    show Q (threads t)
    rw [he]
    exact hQ.setStack (hother t ht) hl
  case closeUpvalues reg =>
    obtain ⟨⟨s, _⟩, hs, ⟨⟩⟩ := Option.bind_eq_some.1 h
    exact Arena.shapedAfter_setThread hother (LuaRegisters.shaped_closeUpvalues hself hs)
  case varargs dest count =>
    obtain ⟨⟨s, _⟩, hs, ⟨⟩⟩ := Option.bind_eq_some.1 h
    exact Arena.shapedAfter_setThread hother (LuaFrame.shapedAfter_varargs hself hs)
  case setTableList tableBase count =>
    obtain ⟨⟨s, _, _⟩, hs, ⟨⟩⟩ := Option.bind_eq_some.1 h
    exact Arena.shapedAfter_setThread hother (LuaFrame.shapedAfter_setTableList hself hs)
  case callFunction func args returns =>
    obtain ⟨⟨s, _⟩, hs, ⟨⟩⟩ := Option.bind_eq_some.1 h
    exact Arena.shapedAfter_setThread hother
      (LuaFrame.shapedAfter_callFunction hself (fun hu l rest hf => hwin l rest hf hu) hs)
  case callFunctionKeep func argCount returns =>
    obtain ⟨⟨s, _⟩, hs, ⟨⟩⟩ := Option.bind_eq_some.1 h
    exact Arena.shapedAfter_setThread hother
      (LuaFrame.shapedAfter_callFunctionKeep hself (fun hu l rest hf => hwin l rest hf hu) hs)
  case callMetaFunction func args retIndex =>
    obtain ⟨⟨s, _⟩, hs, ⟨⟩⟩ := Option.bind_eq_some.1 h
    exact Arena.shapedAfter_setThread hother (LuaFrame.shapedAfter_callMetaFunction hself hs)
  case tailCallFunction func args =>
    obtain ⟨⟨s, _, _⟩, hs, ⟨⟩⟩ := Option.bind_eq_some.1 h
    exact Arena.shapedAfter_setThread hother (LuaFrame.shapedAfter_tailCallFunction hself hs)
  case returnUpper start count =>
    obtain ⟨⟨s, _, _⟩, hs, ⟨⟩⟩ := Option.bind_eq_some.1 h
    exact Arena.shapedAfter_setThread hother (LuaFrame.shapedAfter_returnUpper hself hs)
  case raise err =>
    obtain ⟨l, rest, hf, ⟨⟩⟩ := topLua_bind_eq_some h
    exact ⟨shapedAfter_some_of_lua hself hf, hother⟩

theorem shapedAfter_runVm (hQ : ShapeBound upper Q) {host : Host} {self : ThreadId} :
    ∀ {ops : List VmOp} {a a' : Arena} {e : Option VMError}, a.ShapedAfter Q upper self none →
      (upper → VmInWindow host self ops a) → runVm host self ops a = some (a', e) →
      a'.ShapedAfter Q upper self e
  | [], a, a', e, ha, _, h => by cases h; exact ha
  | op :: ops, a, a', e, ha, hw, h => by
    unfold runVm at h
    obtain ⟨⟨a₁, e₁⟩, h₁, h⟩ := Option.bind_eq_some.1 h
    have hs := VmOp.shapedAfter_exec hQ ha (fun hu => (hw hu).1) h₁
    cases e₁ with
    | some _ => cases h; exact hs
    | none =>
      refine shapedAfter_runVm hQ hs (fun hu => ?_) h
      have := (hw hu).2
      rwa [h₁] at this

-- ════════════════════════════════════════════════════════════════════════
-- `callback_ret`
-- ════════════════════════════════════════════════════════════════════════

/-- The continuation a suspension or a call pushes takes the return at `bottom` in place of the
popped frame. -/
theorem below_pushThen {s : ThreadState} {bottom : Nat} (andThen : Option SequenceId)
    (h : Below upper s.frames bottom) (hc : Callers upper s.frames) :
    Below upper (pushThen s bottom andThen).frames bottom ∧
      Callers upper (pushThen s bottom andThen).frames := by
  cases andThen with
  | none => exact ⟨h, hc⟩
  | some seq => exact ⟨⟨rfl, rfl⟩, h, hc⟩

/-- `callback_ret` on a thread whose popped frame had its bottom at `bottom` keeps `Q` of every
thread. -/
theorem shaped_callbackRet (hQ : ShapeBound upper Q) {self : ThreadId} {a a' : Arena}
    {ts ts' : List ThreadId} {s : ThreadState} {bottom : Nat} {ret : CallbackReturn}
    (ha : ∀ t, t ≠ self → Q (a.threads t)) (h : Below upper s.frames bottom)
    (hc : Callers upper s.frames) (hb : bottom ≤ s.stack.length)
    (hr : callbackRet self a ts s bottom ret = some (a', ts')) : ∀ t, Q (a'.threads t) := by
  have store : ∀ {k : ThreadState}, k.Shaped upper → ∀ t, Q ((a.setThread self k).threads t) :=
    fun hk => Arena.shaped_setThread ha (hQ.of_shaped hk)
  have switch : ∀ {t args st} {ts'' : List ThreadId} {k : ThreadState},
      resumeFrom self a t args = some st →
      (match st with
        | .error e => some (a.setThread self { k with frames := .error e.toError :: k.frames }, ts)
        | .ok ts => some ((a.setThread self k).setThread t ts, t :: ts'')) = some (a', ts') →
      k.Shaped upper → (∀ err, ThreadState.Shaped upper { k with frames := .error err :: k.frames }) →
      ∀ t, Q (a'.threads t) := by
    intro t args st ts'' k hres hm hk hke
    cases st with
    | error e => cases hm; exact store (hke _)
    | ok st =>
      cases hm
      obtain ⟨hself, hmode⟩ := mode_of_resumeFrom hres
      unfold resumeFrom at hres
      rw [if_neg hself] at hres
      have ht := hQ.shaped_of_mode (ha t hself) hmode (by decide)
      exact Arena.shaped_setThread (fun u _ => store hk u) (hQ.of_shaped (shaped_resume ht hres))
  cases ret with
  | «return» =>
    obtain ⟨s', hs', ⟨⟩⟩ := Option.bind_eq_some.1 hr
    exact store (shaped_returnTo h hc hb hs')
  | sequence seq =>
    cases hr
    exact store ⟨hb, h, hc⟩
  | call f andThen =>
    obtain ⟨s', hs', ⟨⟩⟩ := Option.bind_eq_some.1 hr
    obtain ⟨hP, hPc⟩ := below_pushThen andThen h hc
    exact store (shaped_pushCall hP hPc (by simpa using hb) hs')
  | yield toThread andThen =>
    obtain ⟨hP, hPc⟩ := below_pushThen andThen h hc
    cases toThread with
    | none =>
      cases hr
      exact store ⟨by simpa using hb, .inr ⟨_, rfl, hP, hPc⟩⟩
    | some t =>
      obtain ⟨⟨kept, args⟩, hd, hr⟩ := Option.bind_eq_some.1 hr
      obtain ⟨st, hres, hr⟩ := Option.bind_eq_some.1 hr
      have hy : Below upper (pushThen s bottom andThen).frames kept.length ∧
          Callers upper (pushThen s bottom andThen).frames :=
        ⟨by rw [Vec.length_of_drain hd]; exact hP, hPc⟩
      exact switch hres hr hy (fun _ => hy)
  | resume t andThen =>
    obtain ⟨hP, hPc⟩ := below_pushThen andThen h hc
    obtain ⟨⟨kept, args⟩, hd, hr⟩ := Option.bind_eq_some.1 hr
    obtain ⟨st, hres, hr⟩ := Option.bind_eq_some.1 hr
    have hy : Below upper (pushThen s bottom andThen).frames kept.length ∧
        Callers upper (pushThen s bottom andThen).frames :=
      ⟨by rw [Vec.length_of_drain hd]; exact hP, hPc⟩
    exact switch hres hr hy (fun _ => hy)

namespace Executor

/-- Delivering a finished thread's result keeps `Q` of every thread, when `Q` admits the `Error`
frame pushed on the thread beneath it if that thread does not wait. -/
theorem shaped_deliver (hQ : ShapeBound upper Q) {a a' : Arena} {top res : ThreadId}
    (ha : ∀ t, Q (a.threads t))
    (hsh : ∀ m, (a.threads top).mode = some m → m ≠ .waiting →
      ∀ e, Q { a.threads top with frames := .error e :: (a.threads top).frames })
    (hd : deliver a top res = some a') : ∀ t, Q (a'.threads t) := by
  simp only [deliver, Option.bind_eq_bind] at hd
  obtain ⟨m, hm, hd⟩ := Option.bind_eq_some.1 hd
  by_cases hwait : m = .waiting
  swap
  · rw [if_neg hwait] at hd
    cases hd; exact Arena.shaped_setThread (fun u _ => ha u) (hsh m hm hwait _)
  subst hwait
  rw [if_pos rfl] at hd
  obtain ⟨rest, hf⟩ := waitThread_of_mode hm
  have hl := hQ.shaped_of_mode (ha top) hm (by decide)
  rw [ThreadState.Shaped, hf] at hl
  obtain ⟨hbelow, hcallers⟩ := hl
  have herr : ∀ err, Q { a.threads top with frames := .error err :: rest } :=
    fun _ => hQ.of_shaped (errorOn_of_below hbelow hcallers le_rfl)
  simp only [hf] at hd
  split_ifs at hd with hres
  · cases hd; exact Arena.shaped_setThread (fun u _ => ha u) (herr _)
  obtain ⟨m, hm, hd⟩ := Option.bind_eq_some.1 hd
  split at hd
  · obtain ⟨⟨r, rs⟩, ht, hd⟩ := Option.bind_eq_some.1 hd
    have hrs := shaped_takeResult (hQ.shaped_of_mode (ha res) hm (by decide)) ht
    have ha₁ : ∀ t, Q ((a.setThread res rs).threads t) :=
      Arena.shaped_setThread (fun u _ => ha u) (hQ.of_shaped hrs)
    split at hd
    · obtain ⟨s', hs', hd⟩ := Option.bind_eq_some.1 hd
      cases hd
      exact Arena.shaped_setThread (fun u _ => ha₁ u)
        (hQ.of_shaped (shaped_returnTo hbelow hcallers (by simp) hs'))
    · cases hd
      exact Arena.shaped_setThread (fun u _ => ha₁ u) (herr _)
  · cases hd
  · cases hd
    exact Arena.shaped_setThread (fun u _ => ha u) (herr _)

theorem shaped_dispatch (hQ : ShapeBound upper Q) {host : Host} {r : Round} {a a' : Arena}
    {ts ts' : List ThreadId} {top : ThreadId} (ha : ∀ t, Q (a.threads t))
    (hw : upper → VmInWindow host top r.vm a) (hd : dispatch host r a ts top = some (a', ts')) :
    ∀ t, Q (a'.threads t) := by
  have hother : ∀ u, u ≠ top → Q (a.threads u) := fun u _ => ha u
  have htop : (∀ e, (a.threads top).frames.head? ≠ some (.error e)) →
      (a.threads top).Shaped upper :=
    fun hne => hQ.shaped (ha top) fun e _ _ he => hne e (by rw [he]; rfl)
  rcases hf : (a.threads top).frames with _ | ⟨f, rest⟩
  · simp [dispatch, hf] at hd
  cases f with
  | callback bottom _ | sequence bottom _ _ =>
    have hl := htop (by simp [hf])
    rw [ThreadState.Shaped, hf] at hl
    obtain ⟨hb, hbelow, hcallers⟩ := hl
    have hb' : ∀ vs : List Value, bottom ≤ ((a.threads top).stack.take bottom ++ vs).length :=
      fun _ => by simp; omega
    simp only [dispatch, hf] at hd
    split at hd
    · exact shaped_callbackRet hQ hother hbelow hcallers (hb' _) hd
    · cases hd
      exact Arena.shaped_setThread hother (hQ.of_shaped (errorOn_of_below hbelow hcallers (hb' _)))
  | lua l =>
    simp only [dispatch, hf] at hd
    obtain ⟨⟨a₁, e⟩, hrun, hd⟩ := Option.bind_eq_some.1 hd
    have h₁ := shapedAfter_runVm hQ ⟨htop (by simp [hf]), hother⟩ hw hrun
    cases e with
    | some e => cases hd; exact Arena.shaped_setThread h₁.2 (hQ.of_shaped h₁.1)
    | none => cases hd; exact h₁.bound hQ
  | error err =>
    obtain ⟨-, s, cells, rfl, hu⟩ := dispatch_unwind hf hd
    exact Arena.shaped_setThread hother (hQ.unwind (ha top) hu)
  | start _ | yielded | waitThread | result _ => simp [dispatch, hf] at hd

/-- Popping a finished thread and delivering its result keeps `Q` of every thread, when `Q` admits
the `Error` frame pushed on the thread beneath the top if that thread does not wait. -/
theorem shaped_popFinished (hQ : ShapeBound upper Q) {a a₁ : Arena} {ts ts₁ : List ThreadId}
    {top : ThreadId} (ha : ∀ t, Q (a.threads t))
    (hsh : ∀ t m, ts.tail.head? = some t → (a.threads t).mode = some m → m ≠ .waiting →
      ∀ e, Q { a.threads t with frames := .error e :: (a.threads t).frames })
    (hp : popFinished a ts = some (some (a₁, ts₁, top))) : ∀ t, Q (a₁.threads t) := by
  rcases popFinished_cases hp with ⟨rfl, -⟩ | ⟨old, rfl, htop, hdel⟩
  · exact ha
  · exact shaped_deliver hQ ha (hsh top · htop) hdel

/-- One round of `Executor::step` keeps `Q` of every thread, when `Q` admits the `Error` frame
pushed on the thread beneath the top if that thread does not wait. -/
theorem bound_stepRound (hQ : ShapeBound upper Q) {host : Host} {r : Round} {a a' : Arena}
    {ts ts' : List ThreadId} (ha : ∀ t, Q (a.threads t))
    (hsh : ∀ t m, ts.tail.head? = some t → (a.threads t).mode = some m → m ≠ .waiting →
      ∀ e, Q { a.threads t with frames := .error e :: (a.threads t).frames })
    (hw : upper → RoundInWindow host r a ts)
    (hs : stepRound host r a ts = some (some (a', ts'))) : ∀ t, Q (a'.threads t) := by
  obtain ⟨p, hp, hs⟩ := Option.bind_eq_some.1 hs
  rcases p with _ | ⟨a₁, ts₁, top⟩
  · cases hs
  have ha₁ := shaped_popFinished hQ ha hsh hp
  obtain ⟨m, -, hs⟩ := Option.bind_eq_some.1 hs
  split_ifs at hs
  · obtain ⟨_, hd, hs⟩ := Option.map_eq_some'.1 hs
    cases hs
    refine shaped_dispatch hQ ha₁ (fun hu => ?_) hd
    have := hw hu
    rwa [RoundInWindow, hp] at this
  · cases hs; exact ha₁

/-- One round of `Executor::step` on a thread stack whose threads beneath the top wait keeps the
shape of every thread. -/
theorem shaped_stepRound {host : Host} {r : Round} {a a' : Arena} {ts ts' : List ThreadId}
    (ha : a.Shaped upper) (hwf : StackWF a.threads ts) (hw : upper → RoundInWindow host r a ts)
    (hs : stepRound host r a ts = some (some (a', ts'))) : a'.Shaped upper :=
  bound_stepRound shapeBound_shaped ha (fun t _ ht hm hn => absurd (Option.some.inj
    (hm.symm.trans (mode_of_waitThread (hwf.waiting t (List.mem_of_mem_head? ht))))) hn) hw hs

end Executor

end Piccolo
