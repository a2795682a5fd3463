import Piccolo.Executor.Changes
import Piccolo.Thread.FrameSpec

/-!
# The shape of every thread under the whole embedder

`System.Reachable` lets the embedder apply the operations of `Thread` only to a thread that waits
in no executor. The source does not forbid the others: `Thread::reset` accepts a thread that waits
beneath an executor's top, and once such a thread is started again, the round that delivers a
result to it takes the branch of `Executor::step` for "shenanigans" and pushes an `Error` frame on
whatever frames the thread holds: a callback, a `Start` frame, a `Result` frame, another `Error`
frame. `Shape` admits none of them beneath an `Error` frame.

`Loose` admits what lies beneath such an `Error` frame, and `ThreadState.LooselyShaped`, the shape
or an `Error` frame on frames `Loose` admits, holds of every thread in every state of
`System.Reaches`. A thread of this loose shape whose top is not an `Error` frame over other frames
has its `Shape`: so does every thread that is not `Normal`, the only kind the operations of
`Thread` other than `reset` accept, and every thread whose top a round runs as a callback, a
sequence or a batch of `run_vm`.

## Main definitions

- `Loose` — the frames beneath an `Error` frame that a round pushed on a changed thread
- `ThreadState.LooselyShaped` — the shape, or an `Error` frame on frames `Loose` admits

## Main results

- `System.Reaches.looselyShaped` — every thread of every state the embedder reaches
- `stackShape_of_reachable` — the stack shape of every such thread, when every batch of `run_vm`
  names registers inside the window
- `takeResult_of_reachable` — `take_result` on a `Result` frame never panics
-/

namespace Piccolo

/-- The frames beneath an `Error` frame that `Executor::step` pushed on a thread the embedder
changed while it waited: any frames of a thread's shape, a `Yielded` frame over a stack that
holds more than the frames beneath it take, or another such `Error` frame. -/
inductive Loose (upper : Bool) : List Frame → Nat → Prop
  | shape {frames : List Frame} {len : Nat} {ups : List UpValueId} :
      Shape upper frames len ups → Loose upper frames len
  | yielded {rest : List Frame} {b len : Nat} : b ≤ len → Below upper rest b →
      Callers upper rest → Loose upper (.yielded :: rest) len
  | error {e : Error} {rest : List Frame} {len : Nat} : Loose upper rest len →
      Loose upper (.error e :: rest) len

/-- A thread has its shape, or an `Error` frame on frames that `Loose` admits. -/
def ThreadState.LooselyShaped (upper : Bool) (s : ThreadState) : Prop :=
  s.Shaped upper ∨ ∃ e rest, s.frames = .error e :: rest ∧ Loose upper rest s.stack.length

variable {upper : Bool}

/-- An `Error` frame that drops the frame beneath it lands on frames it is admitted on, or on
loose frames again. -/
theorem Loose.drop {f : Frame} {rest : List Frame} {len : Nat} (h : Loose upper (f :: rest) len)
    (hl : ∀ l, f ≠ .lua l) (hs : ∀ b seq pe, f ≠ .sequence b seq pe) :
    ErrorOn upper rest len ∨ Loose upper rest len := by
  cases h with
  | shape h =>
    cases f with
    | callback b cb => exact .inl (errorOn_of_below h.2.1 h.2.2 h.1)
    | start _ => obtain ⟨rfl, -, -⟩ := h; exact .inl trivial
    | yielded | waitThread => exact .inl (errorOn_of_below h.1 h.2 le_rfl)
    | result b =>
      rcases h with ⟨hb, ⟨rfl, -⟩ | ⟨rest', rfl, hbelow, hcallers⟩⟩
      exacts [.inl trivial, .inr (.yielded hb hbelow hcallers)]
    | error _ => exact .inl h
    | lua l => exact (hl l rfl).elim
    | sequence b seq pe => exact (hs b seq pe rfl).elim
  | yielded hb hbelow hcallers => exact .inl (errorOn_of_below hbelow hcallers hb)
  | error h => exact .inr h

namespace ThreadState.LooselyShaped

/-- A thread of the loose shape whose top is not an `Error` frame over other frames has its
shape. -/
theorem shaped {s : ThreadState} (h : s.LooselyShaped upper)
    (hne : ∀ e f rest, s.frames ≠ .error e :: f :: rest) : s.Shaped upper := by
  rcases h with h | ⟨e, _ | ⟨f, rest⟩, hf, -⟩
  · exact h
  · show Shape upper s.frames _ _
    rw [hf]
    trivial
  · exact (hne e f rest hf).elim

theorem setStack {s : ThreadState} {stack : List Value} (h : s.LooselyShaped upper)
    (hl : stack.length = s.stack.length) : ({ s with stack } : ThreadState).LooselyShaped upper :=
  h.imp (shaped_setStack · hl) fun ⟨e, rest, hf, hr⟩ => ⟨e, rest, hf, hl ▸ hr⟩

/-- A step of error unwinding keeps the loose shape. -/
theorem unwind {s s' : ThreadState} (h : s.LooselyShaped upper) (hu : s.Unwind s') :
    s'.LooselyShaped upper := by
  rcases h with h | ⟨e, rest, hf, hl⟩
  · exact .inl (shaped_unwind h hu)
  have strict : ErrorOn upper rest s.stack.length → s'.LooselyShaped upper := fun he =>
    .inl (shaped_unwind (show Shape upper s.frames _ _ from hf ▸ he) hu)
  cases hu with
  | lua ups hf' =>
    rw [hf] at hf'
    cases hf'
    cases hl with | shape h => exact strict (errorOn_of_lua h)
  | sequence hf' =>
    rw [hf] at hf'
    cases hf'
    cases hl with | shape h => exact strict h
  | drop hf' hl' hs' =>
    rw [hf] at hf'
    cases hf'
    exact (hl.drop hl' hs').imp id fun hr => ⟨_, _, rfl, hr⟩

/-- The `Error` frame a round pushes on a thread that does not wait on the finished thread keeps
the loose shape. -/
theorem error_cons {s : ThreadState} (h : s.LooselyShaped upper) (e : Error) :
    ({ s with frames := .error e :: s.frames } : ThreadState).LooselyShaped upper :=
  .inr ⟨e, s.frames, rfl, h.elim .shape fun ⟨_, _, hf, hr⟩ => hf ▸ .error hr⟩

end ThreadState.LooselyShaped

/-- The loose shape is a property the lemmas about a round admit. -/
theorem shapeBound_looselyShaped : ShapeBound upper (ThreadState.LooselyShaped upper) :=
  ⟨.inl, fun h => h.shaped, fun h hl => h.setStack hl, fun h hu => h.unwind hu⟩

/-- One round of `Executor::step`, whatever the threads beneath its top, keeps the loose shape of
every thread. -/
theorem Executor.looselyShaped_stepRound {host : Host} {r : Round} {a a' : Arena}
    {ts ts' : List ThreadId} (ha : ∀ t, (a.threads t).LooselyShaped upper)
    (hw : upper → RoundInWindow host r a ts)
    (hs : stepRound host r a ts = some (some (a', ts'))) :
    ∀ t, (a'.threads t).LooselyShaped upper :=
  bound_stepRound shapeBound_looselyShaped ha (fun t _ _ _ _ e => (ha t).error_cons e) hw hs

-- ════════════════════════════════════════════════════════════════════════
-- Every state the embedder reaches
-- ════════════════════════════════════════════════════════════════════════

/-- Every step of the embedder keeps the loose shape of every thread. -/
theorem System.Step.looselyShaped {host : Host} {window : Bool} {sys sys' : System}
    (hs : System.Step host window sys sys') (h : ∀ t, (sys.arena.threads t).LooselyShaped window) :
    ∀ t, (sys'.arena.threads t).LooselyShaped window := by
  have store : ∀ {t : ThreadId} {s : ThreadState}, s.Shaped window →
      ∀ u, ((sys.arena.setThread t s).threads u).LooselyShaped window :=
    fun hs => Arena.shaped_setThread (fun u _ => h u) (.inl hs)
  have hQ : ShapeBound window (ThreadState.LooselyShaped window) := shapeBound_looselyShaped
  cases hs with
  | threadStart t f args hs => exact store (shaped_start hs)
  | threadStartSuspended t f hs => exact store (shaped_startSuspended hs)
  | threadResume t args hs =>
    exact store (shaped_resume (hQ.shaped_of_mode (h t) (Thread.mode_of_resume hs) (by decide)) hs)
  | threadResumeErr t err hs =>
    exact store
      (shaped_resumeErr (hQ.shaped_of_mode (h t) (Thread.mode_of_resumeErr hs) (by decide)) hs)
  | threadTakeResult t hs =>
    exact store (shaped_thread_takeResult
      (hQ.shaped_of_mode (h t) (Thread.mode_of_takeResult hs) (by decide)) hs)
  | threadReset t hs => exact store (shaped_reset hs)
  | run i t _ | reset i t _ => exact h
  | start i t f args _ hs =>
    obtain ⟨s, hr, rfl, -⟩ := Executor.start_cases hs
    exact store (shaped_start hr)
  | restart i f args hs =>
    obtain ⟨t, s, cells, s', -, -, hst, rfl, -⟩ := Executor.restart_cases hs
    exact store (shaped_start hst)
  | round i r hw hs => exact Executor.looselyShaped_stepRound h hw hs

/-- Every thread of every state the embedder reaches has the loose shape. -/
theorem System.Reaches.looselyShaped {host : Host} {window : Bool} {sys : System}
    (h : System.Reaches host window sys) : ∀ t, (sys.arena.threads t).LooselyShaped window := by
  induction h with
  | refl => exact fun _ => .inl rfl
  | tail _ hs ih => exact hs.looselyShaped ih

-- ════════════════════════════════════════════════════════════════════════
-- The stack shape and `take_result`
-- ════════════════════════════════════════════════════════════════════════

/-- A thread with an `Error` frame on frames that `Loose` admits has the stack shape. -/
theorem Loose.stackShape {rest : List Frame} {len : Nat} (h : Loose true rest len) :
    ∀ {s : ThreadState} (e : Error), s.frames = .error e :: rest → s.stack.length = len →
      StackShape s := by
  induction h with
  | @shape frames len ups h =>
    intro s e hf hl
    have h₀ : StackShape ⟨frames, s.stack, ups⟩ :=
      stackShape_of_shape (by show Shape true frames s.stack.length ups; rw [hl]; exact h)
    exact (h₀.error_cons e).of_length_le (by rw [hf]) le_rfl fun _ _ h => by cases h
  | @yielded rest b len hb hbelow hcallers =>
    intro s e hf hl
    have h₀ : StackShape ⟨.error e :: .yielded :: rest, List.replicate b .nil, []⟩ :=
      stackShape_of_shape ⟨(List.length_replicate b Value.nil).symm ▸ hbelow, hcallers⟩
    exact h₀.of_length_le hf (by simp only [List.length_replicate]; omega) fun _ _ h => by cases h
  | @error e' rest len h ih =>
    intro s e hf hl
    have h₀ := (@ih { s with frames := .error e' :: rest } e' rfl hl).error_cons e
    exact h₀.of_length_le (by rw [hf]) le_rfl fun _ _ h => by cases h

/-- A thread of the loose shape has the stack shape. -/
theorem ThreadState.LooselyShaped.stackShape {s : ThreadState} (h : s.LooselyShaped true) :
    StackShape s :=
  h.elim stackShape_of_shape fun ⟨e, _, hf, hl⟩ => hl.stackShape e hf rfl

/-- When every batch of `run_vm` names registers inside the window, every thread of every state
the embedder reaches has the stack shape. -/
theorem stackShape_of_reachable {host : Host} {sys : System} (h : System.Reaches host true sys)
    (t : ThreadId) : StackShape (sys.arena.threads t) :=
  (h.looselyShaped t).stackShape

/-- Thread `0` waits in executor `0` beneath thread `1`, which it resumed, when the embedder resets
it, starts it on a callback and runs it in executor `1`, where the callback yields the values
`[1]`. Once thread `1` returns, executor `0` delivers its result to thread `0`, which is in `Result`
mode and not `Waiting`: the round pushes an `Error` frame on it and unwinds the `Result` frame. The
`Error` frame is left on the `Yielded` frame over a stack that still holds a value, which `Shape`
does not admit. -/
theorem reset_while_waiting_reachable :
    ∃ sys : System, System.Reaches Host.functionsOnly true sys ∧
      (sys.arena.threads 0).frames =
        [.error (BadThreadMode.toError ⟨.result, none⟩), .yielded] ∧
      (sys.arena.threads 0).stack = [.integer 1] ∧ ¬ (sys.arena.threads 0).Shaped true := by
  have hw : ∀ {a ts} (r : Round), r.vm = [] → Executor.RoundInWindow Host.functionsOnly r a ts := by
    intro a ts r hr; unfold Executor.RoundInWindow; split <;> simp [hr, VmInWindow]
  have h₀ : System.Reaches Host.functionsOnly true _ := System.Reachable.reaches
    (.round 0 ⟨[], .ok (.resume 1 (some 7)), [], .ok .pending, []⟩
      (.start 0 0 (.callback 0) [] (.threadStartSuspended 1 (.callback 1) .init
        (fun ⟨_, h⟩ => (List.not_mem_nil _ h).elim) rfl) rfl rfl) (fun _ => hw _ rfl) rfl)
  have h₁ := (((h₀.tail (.threadReset 0 rfl)).tail (.threadStart 0 (.callback 2) [] rfl)).tail
    (.run 1 0 rfl)).tail
    (.round 1 ⟨[.integer 1], .ok (.yield none none), [], .ok .pending, []⟩ (fun _ => hw _ rfl) rfl)
  have h₂ := (h₁.tail (.round 0 ⟨[], .ok .return, [], .ok .pending, []⟩ (fun _ => hw _ rfl) rfl)).tail
    (.round 0 ⟨[], .ok .return, [], .ok .pending, []⟩ (fun _ => hw _ rfl) rfl)
  exact ⟨_, h₂, rfl, rfl, fun h => Nat.succ_ne_zero _ h.1⟩

/-- The thread of `reset_while_waiting_reachable` has the stack shape. -/
theorem stackShape_after_reset_while_waiting :
    ∃ sys : System, System.Reaches Host.functionsOnly true sys ∧
      (sys.arena.threads 0).frames =
        [.error (BadThreadMode.toError ⟨.result, none⟩), .yielded] ∧
      StackShape (sys.arena.threads 0) :=
  let ⟨sys, h, hf, _⟩ := reset_while_waiting_reachable
  ⟨sys, h, hf, stackShape_of_reachable h 0⟩

/-- In every state the embedder reaches, `take_result` on a thread with a `Result` frame on top
does not panic: it hands over the values above the frame's bottom and pops the frame, which was
alone over an emptied stack or sat on a `Yielded` frame. -/
theorem takeResult_of_reachable {host : Host} {window : Bool} {sys : System}
    (h : System.Reaches host window sys) {t : ThreadId} {bottom : Nat} {rest : List Frame}
    (hf : (sys.arena.threads t).frames = .result bottom :: rest) :
    let s := sys.arena.threads t
    Thread.takeResult s = some (.ok (.ok (s.stack.drop bottom),
      { s with frames := rest, stack := s.stack.take bottom })) ∧
    (rest = [] ∧ bottom = 0 ∨ ∃ rest', rest = .yielded :: rest') := by
  have hs := (h.looselyShaped t).shaped fun _ _ _ he => by rw [hf] at he; cases he
  rw [ThreadState.Shaped, hf] at hs
  exact ⟨Thread.takeResult_of_result hf hs.1, hs.2.imp_right fun ⟨rest', hr, _⟩ => ⟨rest', hr⟩⟩

/-- A closure started by executor `0` that returns at once leaves a lone `Result` frame, whose
result is taken without a panic. -/
theorem takeResult_after_return :
    ∃ sys : System, System.Reaches Host.functionsOnly false sys ∧
      (sys.arena.threads 0).frames = [.result 0] ∧
      let s := sys.arena.threads 0
      Thread.takeResult s = some (.ok (.ok (s.stack.drop 0),
        { s with frames := [], stack := s.stack.take 0 })) ∧
      (([] : List Frame) = [] ∧ 0 = 0 ∨ ∃ rest', ([] : List Frame) = .yielded :: rest') := by
  have h : System.Reaches Host.functionsOnly false _ := System.Reachable.reaches
    (.round 0 ⟨[], .ok .return, [], .ok .pending, [.returnUpper 0 (.constant 0)]⟩
      (.start 0 0 (.closure ⟨1, ⟨0, 2⟩⟩) [] .init rfl rfl) (fun h => by cases h) rfl)
  exact ⟨_, h, rfl, takeResult_of_reachable h rfl⟩

end Piccolo
