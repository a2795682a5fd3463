import Piccolo.Executor.Step

/-!
# The executor's thread stack

An executor runs the thread on top of its thread stack; every thread beneath it resumed the thread
above it and waits on a `WaitThread` frame. This file proves that the operations of `Executor`
keep the stack in that shape.

## Main definitions

- `Executor.StackWF` — the shape of a thread stack
- `Executor.Reachable` — the states an executor reaches through its public operations

## Main results

- `Executor.stepRound_stackWF` — one round of `Executor::step` keeps the shape
- `Executor.threadStack_wf_of_reachable` — every reachable thread stack has it

## Design notes

Only the frames of the threads beneath the top matter to the shape, and the thread code changes
another thread's frames in two places only: when it resumes a thread, which must then be
suspended, and when it delivers a finished thread's result. Everything else writes the top
thread, or a stack slot of another thread through an open upvalue.
-/

namespace Piccolo

theorem mode_of_waitThread {s : ThreadState} (h : s.frames.head? = some .waitThread) :
    s.mode = some .waiting := by
  unfold ThreadState.mode
  cases hf : s.frames with
  | nil => simp [hf] at h
  | cons f rest => simp only [hf, List.head?_cons, Option.some.injEq] at h; subst h; rfl

/-- Only a `WaitThread` frame on top makes a thread `Waiting`. -/
theorem waitThread_of_mode {s : ThreadState} (h : s.mode = some .waiting) :
    ∃ rest, s.frames = .waitThread :: rest := by
  unfold ThreadState.mode at h
  cases hf : s.frames with
  | nil => simp only [hf] at h; split_ifs at h; cases h
  | cons f rest =>
    simp only [hf, Option.some.injEq] at h
    cases f <;> simp [ThreadState.frameMode] at h ⊢
    split_ifs at h

namespace Executor

/-- The shape of an executor's thread stack, top first: never empty, no thread twice, and every
thread beneath the top suspended on a `WaitThread` frame. -/
structure StackWF (threads : ThreadId → ThreadState) (threadStack : List ThreadId) : Prop where
  ne_nil : threadStack ≠ []
  nodup : threadStack.Nodup
  waiting : ∀ t ∈ threadStack.tail, (threads t).frames.head? = some .waitThread

namespace StackWF

variable {threads threads' : ThreadId → ThreadState} {self t : ThreadId} {rest : List ThreadId}

theorem singleton (threads : ThreadId → ThreadState) (t : ThreadId) : StackWF threads [t] :=
  ⟨List.cons_ne_nil t [], List.nodup_cons.2 ⟨List.not_mem_nil t, List.nodup_nil⟩, by simp⟩

/-- A thread that is not `Waiting` is not beneath the top. -/
theorem not_mem_tail {ts : List ThreadId} {m : ThreadMode} (h : StackWF threads ts)
    (hm : (threads t).mode = some m) (hne : m ≠ .waiting) : t ∉ ts.tail := fun ht =>
  hne (Option.some.inj (hm.symm.trans (mode_of_waitThread (h.waiting t ht))))

/-- The stack keeps its shape while the frames of the threads beneath the top stay. -/
theorem of_frames_ne (h : StackWF threads (self :: rest))
    (hr : ∀ u, u ≠ self → (threads' u).frames = (threads u).frames) :
    StackWF threads' (self :: rest) := by
  refine ⟨h.ne_nil, h.nodup, fun u hu => ?_⟩
  rw [hr u fun e => (List.nodup_cons.1 h.nodup).1 (e ▸ hu)]
  exact h.waiting u hu

/-- A suspended thread `t` resumed in place of `self`: a yield to `t`, or a resume in tail
position. -/
theorem resume_replace (h : StackWF threads (self :: rest))
    (hmode : (threads t).mode = some .suspended)
    (hr : ∀ u, u ≠ self → u ≠ t → (threads' u).frames = (threads u).frames) :
    StackWF threads' (t :: rest) := by
  have ht : t ∉ rest := h.not_mem_tail hmode (by decide)
  have hs := List.nodup_cons.1 h.nodup
  refine ⟨List.cons_ne_nil _ _, List.nodup_cons.2 ⟨ht, hs.2⟩, fun u hu => ?_⟩
  rw [hr u (fun e => hs.1 (e ▸ hu)) (fun e => ht (e ▸ hu))]
  exact h.waiting u hu

/-- A suspended thread `t` resumed above `self`, which waits on it. -/
theorem resume_push (h : StackWF threads (self :: rest))
    (hmode : (threads t).mode = some .suspended) (hself : t ≠ self)
    (hr : ∀ u, u ≠ self → u ≠ t → (threads' u).frames = (threads u).frames)
    (hwait : (threads' self).frames.head? = some .waitThread) :
    StackWF threads' (t :: self :: rest) := by
  have ht : t ∉ rest := h.not_mem_tail hmode (by decide)
  refine ⟨List.cons_ne_nil _ _, ?_, ?_⟩
  · simpa [hself, ht] using h.nodup
  · simpa [hwait] using (h.resume_replace hmode hr).waiting

/-- The top thread has stopped and is popped; its result goes to `next`. -/
theorem pop {next : ThreadId} (h : StackWF threads (self :: next :: rest))
    (hr : ∀ u, u ≠ next → u ≠ self → threads' u = threads u) : StackWF threads' (next :: rest) := by
  have hs := List.nodup_cons.1 h.nodup
  have hn := List.nodup_cons.1 hs.2
  refine ⟨List.cons_ne_nil _ _, hs.2, fun u hu => ?_⟩
  rw [hr u (fun e => hn.1 (e ▸ hu)) (fun e => hs.1 (e ▸ List.mem_cons_of_mem _ hu))]
  exact h.waiting u (List.mem_cons_of_mem _ hu)

end StackWF

-- ════════════════════════════════════════════════════════════════════════
-- One round
-- ════════════════════════════════════════════════════════════════════════

theorem callbackRet_stackWF {self : ThreadId} {rest : List ThreadId} {a a' : Arena}
    {s : ThreadState} {bottom : Nat} {ret : CallbackReturn} {ts' : List ThreadId}
    (h : StackWF a.threads (self :: rest))
    (hc : callbackRet self a (self :: rest) s bottom ret = some (a', ts')) :
    StackWF a'.threads ts' := by
  have top_only : ∀ s', StackWF (a.setThread self s').threads (self :: rest) := fun s' =>
    h.of_frames_ne fun u hu => by simp [hu]
  have switch : ∀ {t args st} {ts'' : List ThreadId} {k : ThreadState},
      resumeFrom self a t args = some st →
      (match st with
        | .error e => some (a.setThread self { k with frames := .error e.toError :: k.frames },
            self :: rest)
        | .ok ts => some ((a.setThread self k).setThread t ts, t :: ts'')) = some (a', ts') →
      (ts'' = rest ∨ ts'' = self :: rest ∧ k.frames.head? = some .waitThread) →
      StackWF a'.threads ts' := by
    intro t args st ts'' k hr hc hts
    cases st with
    | error e => cases hc; exact top_only _
    | ok st =>
      cases hc
      obtain ⟨hself, hmode⟩ := mode_of_resumeFrom hr
      have hr' : ∀ u, u ≠ self → u ≠ t →
          (((a.setThread self k).setThread t st).threads u).frames = (a.threads u).frames :=
        fun u hu hut => by simp [hu, hut]
      rcases hts with rfl | ⟨rfl, hk⟩
      · exact h.resume_replace hmode hr'
      · exact h.resume_push hmode hself hr' (by simp [Ne.symm hself, hk])
  cases ret with
  | «return» =>
    obtain ⟨_, -, hc⟩ := Option.bind_eq_some.1 hc
    cases hc; exact top_only _
  | sequence seq => cases hc; exact top_only _
  | call f andThen =>
    obtain ⟨_, -, hc⟩ := Option.bind_eq_some.1 hc
    cases hc; exact top_only _
  | yield toThread andThen =>
    cases toThread with
    | none => cases hc; exact top_only _
    | some t =>
      obtain ⟨_, -, hc⟩ := Option.bind_eq_some.1 hc
      obtain ⟨_, hr, hc⟩ := Option.bind_eq_some.1 hc
      exact switch hr hc (.inl rfl)
  | resume t andThen =>
    obtain ⟨_, -, hc⟩ := Option.bind_eq_some.1 hc
    obtain ⟨_, hr, hc⟩ := Option.bind_eq_some.1 hc
    refine switch hr hc ?_
    split_ifs
    · exact .inl rfl
    · exact .inr ⟨rfl, rfl⟩

theorem dispatch_stackWF {host : Host} {r : Round} {a a' : Arena} {top : ThreadId}
    {rest ts' : List ThreadId} (h : StackWF a.threads (top :: rest))
    (hd : dispatch host r a (top :: rest) top = some (a', ts')) : StackWF a'.threads ts' := by
  have top_only : ∀ s', StackWF (a.setThread top s').threads (top :: rest) := fun s' =>
    h.of_frames_ne fun u hu => by simp [hu]
  dsimp only [dispatch, Option.bind_eq_bind] at hd
  split at hd
  · split at hd
    · exact callbackRet_stackWF h hd
    · cases hd; exact top_only _
  · split at hd
    · exact callbackRet_stackWF h hd
    · cases hd; exact top_only _
  · obtain ⟨⟨a₁, e⟩, hrun, hd⟩ := Option.bind_eq_some.1 hd
    have h₁ : StackWF a₁.threads (top :: rest) :=
      h.of_frames_ne fun u hu => frames_of_runVm hrun hu
    split at hd <;> cases hd
    · exact h₁.of_frames_ne fun u hu => by simp [hu]
    · exact h₁
  · split at hd
    · obtain ⟨_, -, hd⟩ := Option.bind_eq_some.1 hd
      cases hd; exact top_only _
    · split_ifs at hd; cases hd; exact top_only _
    · cases hd; exact top_only _
    · cases hd
  · cases hd

/-- Popping a finished thread keeps the shape, and leaves the new top on top. -/
theorem popFinished_stackWF {a a₁ : Arena} {ts ts₁ : List ThreadId} {top : ThreadId}
    (h : StackWF a.threads ts) (hp : popFinished a ts = some (some (a₁, ts₁, top))) :
    ∃ rest, ts₁ = top :: rest ∧ StackWF a₁.threads ts₁ := by
  obtain ⟨t, rest, rfl⟩ := List.exists_cons_of_ne_nil h.ne_nil
  simp only [popFinished, List.head?_cons, Option.bind_eq_bind, Option.some_bind,
    Option.bind_eq_some] at hp
  obtain ⟨mode, -, hp⟩ := hp
  split_ifs at hp with hstop hnormal
  · cases hp
  · cases hp; exact ⟨rest, rfl, h⟩
  · obtain ⟨next, rest, rfl⟩ : ∃ next rest', rest = next :: rest' := by
      cases rest with
      | nil => simp_all
      | cons next rest' => exact ⟨next, rest', rfl⟩
    simp only [List.tail_cons, List.head?_cons, Option.some_bind] at hp
    obtain ⟨a₂, hdel, ⟨⟩⟩ := Option.bind_eq_some.1 hp
    exact ⟨rest, rfl, h.pop fun u hn ht => threads_of_deliver hdel hn ht⟩

/-- One round of `Executor::step` keeps the shape of the thread stack. -/
theorem stepRound_stackWF {host : Host} {r : Round} {a a' : Arena} {ts ts' : List ThreadId}
    (h : StackWF a.threads ts) (hs : stepRound host r a ts = some (some (a', ts'))) :
    StackWF a'.threads ts' := by
  obtain ⟨p, hp, hs⟩ := Option.bind_eq_some.1 hs
  rcases p with _ | ⟨a₁, ts₁, top⟩
  · cases hs
  obtain ⟨rest, rfl, h₁⟩ := popFinished_stackWF h hp
  obtain ⟨m, -, hs⟩ := Option.bind_eq_some.1 hs
  split_ifs at hs
  · obtain ⟨_, hd, hs⟩ := Option.map_eq_some'.1 hs
    cases hs
    exact dispatch_stackWF h₁ hd
  · cases hs; exact h₁

-- ════════════════════════════════════════════════════════════════════════
-- Reachable executors
-- ════════════════════════════════════════════════════════════════════════

/-- The arena and thread stack of an executor after any sequence of its public operations, from
`Executor::new`, `Executor::run` or `Executor::start`. -/
inductive Reachable (host : Host) : Arena → List ThreadId → Prop where
  | run (a : Arena) (thread : ThreadId) : Reachable host a (run thread)
  | start {a a' : Arena} {thread : ThreadId} {function : Function} {args : List Value}
      {ts : List ThreadId} : start a thread function args = some (a', ts) → Reachable host a' ts
  | step {a a' : Arena} {ts ts' : List ThreadId} {r : Round} {rs : List Round} {done : Bool} :
      Reachable host a ts → step host r rs a ts = some (done, a', ts') → Reachable host a' ts'
  | resume {a a' : Arena} {ts : List ThreadId} {args : List Value}
      {res : Except BadThreadMode Unit} :
      Reachable host a ts → resume a ts args = some (res, a') → Reachable host a' ts
  | resumeErr {a a' : Arena} {ts : List ThreadId} {error : Error}
      {res : Except BadThreadMode Unit} :
      Reachable host a ts → resumeErr a ts error = some (res, a') → Reachable host a' ts
  | takeResult {a a' : Arena} {ts : List ThreadId}
      {res : Except BadThreadMode (Except Error (List Value))} :
      Reachable host a ts → takeResult a ts = some (res, a') → Reachable host a' ts
  | reset {a : Arena} {ts : List ThreadId} (thread : ThreadId) :
      Reachable host a ts → Reachable host a (reset thread)
  | restart {a a' : Arena} {ts ts' : List ThreadId} {function : Function} {args : List Value} :
      Reachable host a ts → restart a ts function args = some (a', ts') → Reachable host a' ts'

/-- An operation that acts on the only thread of the stack, and on nothing when there are more. -/
theorem StackWF.of_single {a a' : Arena} {ts : List ThreadId} (h : StackWF a.threads ts)
    (hop : ts.length > 1 → a' = a) : StackWF a'.threads ts := by
  by_cases hl : ts.length > 1
  · rw [hop hl]; exact h
  · obtain ⟨t, rest, rfl⟩ := List.exists_cons_of_ne_nil h.ne_nil
    obtain rfl : rest = [] :=
      List.eq_nil_of_length_eq_zero (by simp only [List.length_cons] at hl; omega)
    exact StackWF.singleton _ t

theorem Reachable.stackWF {host : Host} {a : Arena} {ts : List ThreadId}
    (h : Reachable host a ts) : StackWF a.threads ts := by
  induction h with
  | run a thread => exact StackWF.singleton _ _
  | start hs =>
    obtain ⟨_, -, hs⟩ := Option.bind_eq_some.1 hs
    split at hs <;> cases hs
    exact StackWF.singleton _ _
  | step _ hs ih =>
    exact step_preserves (fun a ts => StackWF a.threads ts)
      (fun _ _ _ _ _ h hr => stepRound_stackWF h hr) _ ih hs
  | resume _ hs ih =>
    refine ih.of_single fun hl => ?_
    rw [Executor.resume, if_pos hl] at hs
    exact (Prod.mk.inj (Option.some.inj hs)).2.symm
  | resumeErr _ hs ih =>
    refine ih.of_single fun hl => ?_
    rw [Executor.resumeErr, if_pos hl] at hs
    exact (Prod.mk.inj (Option.some.inj hs)).2.symm
  | takeResult _ hs ih =>
    refine ih.of_single fun hl => ?_
    rw [Executor.takeResult, if_pos hl] at hs
    exact (Prod.mk.inj (Option.some.inj hs)).2.symm
  | reset thread _ _ => exact StackWF.singleton _ _
  | restart _ hs _ =>
    simp only [Executor.restart, Option.bind_eq_bind, Option.bind_eq_some] at hs
    obtain ⟨_, -, _, -, _, -, hs⟩ := hs
    split at hs <;> cases hs
    exact StackWF.singleton _ _

/-- Every thread stack an executor reaches through its public operations is non-empty, holds no
thread twice, and every thread beneath its top waits on a `WaitThread` frame, so is `Waiting`:
`step` can always take the last thread, delivers a finished thread's result to a waiting thread,
and never runs a thread that also waits beneath it. -/
theorem threadStack_wf_of_reachable {host : Host} {a : Arena} {ts : List ThreadId}
    (h : Reachable host a ts) :
    ts ≠ [] ∧ ts.Nodup ∧ ∀ t ∈ ts.tail,
      (a.threads t).frames.head? = some .waitThread ∧ (a.threads t).mode = some .waiting := by
  have hw := h.stackWF
  exact ⟨hw.ne_nil, hw.nodup, fun t ht => ⟨hw.waiting t ht, mode_of_waitThread (hw.waiting t ht)⟩⟩

/-- A callback on thread `0` resumes the suspended thread `1` and continues in a sequence: after
one round thread `1` runs above thread `0`, which waits on it. -/
theorem threadStack_wf_after_resume :
    let a : Arena := ⟨Function.update (fun _ => ⟨[.callback 0 0], [], []⟩) 1
      ⟨[.start (.callback 1)], [], []⟩, ⟨fun _ => .closed .nil, 0⟩⟩
    let r : Round := ⟨[], .ok (.resume 1 (some 7)), [], .ok .pending, []⟩
    ∃ a', step Host.functionsOnly r [] a (run 0) = some (false, a', [1, 0]) ∧
      [1, 0] ≠ [] ∧ [1, 0].Nodup ∧ ∀ t ∈ [1, 0].tail,
        (a'.threads t).frames.head? = some .waitThread ∧ (a'.threads t).mode = some .waiting := by
  intro a r
  exact ⟨_, rfl, threadStack_wf_of_reachable
    (@Reachable.step Host.functionsOnly a _ (run 0) [1, 0] r [] false (.run a 0) rfl)⟩

end Executor

end Piccolo
