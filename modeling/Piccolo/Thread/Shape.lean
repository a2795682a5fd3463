import Piccolo.Thread.Thread

/-!
# The shape of a thread's frames and stack

Which frame may sit on which, and where each frame's bottom lies on the stack, as every operation
on a thread leaves them. `Shape` states it over the frames, top first, and the height of the stack;
this file proves that the methods of `ThreadState` and the public operations of `Thread` keep it.

## Main definitions

- `Below` — the frames beneath a frame with a given bottom can take its return
- `Callers` — the frames beneath the top are Lua frames and sequences, each on its own callers
- `ErrorOn` — the frames an `Error` frame may unwind through
- `Shape` — the whole frame stack, by its top frame

## Design notes

A `Yielded` or `WaitThread` frame has no bottom of its own: the frame it suspended was popped and
its values drained, so the stack ends where that frame's bottom was, and `resume` or the delivery
of a result returns to the frames beneath from the top of the stack.

`upper` decides whether a frame called from a Lua frame `L` starts inside `L`'s register window,
`bottom ≤ L.base + L.stackSize`. That holds when the registers `run_vm` names lie inside the
window, which `thread.rs` does not check; every other part of `Shape` holds on every run.
-/

namespace Piccolo

/-- The frames `rest` can take a return to stack height `b`: a Lua frame that expects one, with
`b` in its register window and at its end for a metamethod call, a sequence at `b` with no error
pending, or no frame at all, with `b = 0`. -/
def Below (upper : Bool) : List Frame → Nat → Prop
  | [], b => b = 0
  | .lua l :: _, b =>
    l.expectedReturn ≠ none ∧ l.base ≤ b ∧ (upper → b ≤ l.base + l.stackSize) ∧
      ∀ slot, l.expectedReturn = some (.meta slot) → b = l.base + l.stackSize
  | .sequence b' _ pending :: _, b => b = b' ∧ pending = none
  | _, _ => False

/-- The frames beneath the top: Lua frames and sequences, each on the frames beneath it. -/
def Callers (upper : Bool) : List Frame → Prop
  | [] => True
  | .lua l :: rest => l.bottom < l.base ∧ Below upper rest l.bottom ∧ Callers upper rest
  | .sequence b _ _ :: rest => Below upper rest b ∧ Callers upper rest
  | _ => False

/-- The frames beneath an `Error` frame over a stack of height `len`: a Lua frame, whether it
expects a return or not, a sequence with no error pending, a suspended frame, or nothing. -/
def ErrorOn (upper : Bool) : List Frame → Nat → Prop
  | [], _ => True
  | .lua l :: rest, len =>
    l.bottom < l.base ∧ l.bottom ≤ len ∧ Below upper rest l.bottom ∧ Callers upper rest
  | .sequence b _ none :: rest, len => b ≤ len ∧ Below upper rest b ∧ Callers upper rest
  | .yielded :: rest, len | .waitThread :: rest, len => Below upper rest len ∧ Callers upper rest
  | _, _ => False

/-- The frames of a thread, top first, over a stack of height `len` with open upvalues `ups`. -/
def Shape (upper : Bool) : List Frame → Nat → List UpValueId → Prop
  | [], len, _ => len = 0
  | .lua l :: rest, len, _ =>
    l.bottom < l.base ∧ (if l.isVariable then l.base ≤ len else len = l.base + l.stackSize) ∧
      Below upper rest l.bottom ∧ Callers upper rest
  | .callback b _ :: rest, len, _ | .sequence b _ _ :: rest, len, _ =>
    b ≤ len ∧ Below upper rest b ∧ Callers upper rest
  | .start _ :: rest, len, ups => rest = [] ∧ len = 0 ∧ ups = []
  | .yielded :: rest, len, _ | .waitThread :: rest, len, _ =>
    Below upper rest len ∧ Callers upper rest
  | .result b :: rest, len, _ =>
    b ≤ len ∧ (rest = [] ∧ b = 0 ∨ ∃ rest', rest = .yielded :: rest' ∧ Below upper rest' b ∧
      Callers upper rest')
  | .error _ :: rest, len, _ => ErrorOn upper rest len

/-- The shape of a thread's state. -/
abbrev ThreadState.Shaped (upper : Bool) (s : ThreadState) : Prop :=
  Shape upper s.frames s.stack.length s.openUpvalues

variable {upper : Bool}

theorem Shape.congr_ups {frames : List Frame} {len : Nat} {ups ups' : List UpValueId}
    (h : Shape upper frames len ups) (hs : ∀ f rest, frames = .start f :: rest → ups' = []) :
    Shape upper frames len ups' := by
  match frames, h with
  | .start f :: rest, ⟨h₁, h₂, _⟩ => exact ⟨h₁, h₂, hs f rest rfl⟩
  | [], h | .lua _ :: _, h | .callback .. :: _, h | .sequence .. :: _, h | .yielded :: _, h
  | .waitThread :: _, h | .result _ :: _, h | .error _ :: _, h => exact h

/-- The register window of a Lua frame on top starts inside the stack. -/
theorem Shape.base_le_of_lua {l : LuaFields} {rest : List Frame} {len : Nat} {ups : List UpValueId}
    (h : Shape upper (.lua l :: rest) len ups) : l.base ≤ len := by
  obtain ⟨-, hv, -⟩ := h
  split_ifs at hv <;> omega

/-- An error raised by the top Lua frame lands on it. -/
theorem errorOn_of_lua {l : LuaFields} {rest : List Frame} {len : Nat} {ups : List UpValueId}
    (h : Shape upper (.lua l :: rest) len ups) : ErrorOn upper (.lua l :: rest) len :=
  ⟨h.1, by have := h.base_le_of_lua; have := h.1; omega, h.2.2⟩

/-- A frame with bottom `b ≤ len`, placed on `rest`, can be replaced by an `Error` frame. -/
theorem errorOn_of_below {rest : List Frame} {b len : Nat} (h : Below upper rest b)
    (hc : Callers upper rest) (hb : b ≤ len) : ErrorOn upper rest len := by
  match rest, h, hc with
  | [], _, _ => trivial
  | .lua l :: _, ⟨_, hbase, _⟩, ⟨hlt, hbelow, hcallers⟩ => exact ⟨hlt, by omega, hbelow, hcallers⟩
  | .sequence .. :: _, ⟨hbb, hpe⟩, ⟨hbelow, hcallers⟩ =>
    subst hbb hpe
    exact ⟨hb, hbelow, hcallers⟩

-- ════════════════════════════════════════════════════════════════════════
-- The methods of `ThreadState`
-- ════════════════════════════════════════════════════════════════════════

/-- A call from frames that can take its return leaves the shape. -/
theorem Called.shaped {callers frames : List Frame} {b : Nat} {stack : List Value}
    {ups : List UpValueId} (h : Called callers b frames stack) (hb : Below upper callers b)
    (hc : Callers upper callers) : Shape upper frames stack.length ups := by
  cases h with
  | closure hlt => exact ⟨hlt, by simp, hb, hc⟩
  | callback hl => exact ⟨hl, hb, hc⟩

/-- A return to frames that can take it leaves the shape. -/
theorem Returned.shaped {b : Nat} {frames frames' : List Frame} {len : Nat} {ups : List UpValueId}
    (h : Returned b frames frames' len) (hb : Below upper frames b) (hc : Callers upper frames) :
    Shape upper frames' len ups := by
  cases h with
  | sequence hl => exact ⟨hl, hc⟩
  | variadic _ hl => exact ⟨hc.1, by simp only [if_true]; exact hb.2.1.trans hl, hc.2⟩
  | window _ hl => exact ⟨hc.1, by simpa using hl, hc.2⟩
  | result hl => exact ⟨hl, .inl ⟨rfl, hb⟩⟩

theorem shaped_pushCall {s s' : ThreadState} {bottom : Nat} {f : Function}
    (h : Below upper s.frames bottom) (hc : Callers upper s.frames)
    (hb : bottom ≤ s.stack.length) (hp : s.pushCall bottom f = some s') : s'.Shaped upper :=
  ((ThreadState.pushCall_cases hp).2 hb).shaped h hc

theorem shaped_returnTo {s s' : ThreadState} {b : Nat} (h : Below upper s.frames b)
    (hc : Callers upper s.frames) (hb : b ≤ s.stack.length) (hr : s.returnTo b = some s') :
    s'.Shaped upper :=
  ((ThreadState.returnTo_cases hr).2 hb).shaped h hc

theorem shaped_takeResult {s s' : ThreadState} {r : Except Error (List Value)}
    (h : s.Shaped upper) (hr : s.takeResult = some (r, s')) : s'.Shaped upper := by
  rcases ThreadState.takeResult_cases hr with ⟨b, rest, hf, hb, -, rfl⟩ | ⟨e, hf, hs, -, -, rfl⟩
  · rw [ThreadState.Shaped, hf] at h
    have hlen : (s.stack.take b).length = b := by simp; omega
    show Shape upper rest (s.stack.take b).length s.openUpvalues
    rw [hlen]
    rcases h.2 with ⟨rfl, rfl⟩ | ⟨rest', rfl, hrest'⟩
    · rfl
    · exact hrest'
  · show Shape upper [] s.stack.length s.openUpvalues
    simp [hs, Shape]

-- ════════════════════════════════════════════════════════════════════════
-- The public operations of `Thread`
-- ════════════════════════════════════════════════════════════════════════

theorem ThreadState.eq_of_mode_stopped {s : ThreadState} (h : s.mode = some .stopped) :
    s.frames = [] ∧ s.stack = [] ∧ s.openUpvalues = [] := by
  unfold ThreadState.mode at h
  split at h
  · split_ifs at h with hs
    exact ⟨‹_›, hs⟩
  · simp only [Option.some.injEq, ThreadState.frameMode] at h
    split at h <;> (try split_ifs at h) <;> cases h

theorem shaped_start {s s' : ThreadState} {f : Function} {args : List Value}
    (hs : Thread.start s f args = some (.ok s')) : s'.Shaped upper := by
  simp only [Thread.start, Option.bind_eq_bind, Option.bind_eq_some] at hs
  obtain ⟨r, hc, hs⟩ := hs
  rcases r with _ | s₁
  · cases hs
  obtain ⟨hmode, rfl⟩ := Thread.checkMode_eq_ok.1 hc
  obtain ⟨hf, hst, -⟩ := ThreadState.eq_of_mode_stopped hmode
  simp only [hst, if_true, Option.map_eq_some'] at hs
  obtain ⟨s₂, hp, ⟨⟩⟩ := hs
  exact shaped_pushCall (by simp [hf, Below]) (by simp [hf, Callers]) (Nat.zero_le _) hp

theorem shaped_startSuspended {s s' : ThreadState} {f : Function}
    (hs : Thread.startSuspended s f = some (.ok s')) : s'.Shaped upper := by
  simp only [Thread.startSuspended, Option.bind_eq_bind, Option.bind_eq_some] at hs
  obtain ⟨r, hc, hs⟩ := hs
  rcases r with _ | s₁
  · cases hs
  obtain ⟨hmode, rfl⟩ := Thread.checkMode_eq_ok.1 hc
  obtain ⟨hf, hst, hups⟩ := ThreadState.eq_of_mode_stopped hmode
  cases hs
  exact ⟨hf, by simp [hst], hups⟩

theorem shaped_thread_takeResult {s s' : ThreadState} {r : Except Error (List Value)}
    (h : s.Shaped upper) (hs : Thread.takeResult s = some (.ok (r, s'))) : s'.Shaped upper := by
  simp only [Thread.takeResult, Option.bind_eq_bind, Option.bind_eq_some] at hs
  obtain ⟨c, hc, hs⟩ := hs
  rcases c with _ | s₁
  · cases hs
  obtain ⟨-, rfl⟩ := Thread.checkMode_eq_ok.1 hc
  obtain ⟨_, ht, ⟨⟩⟩ := Option.map_eq_some'.1 hs
  exact shaped_takeResult h ht

theorem shaped_resume {s s' : ThreadState} {args : List Value} (h : s.Shaped upper)
    (hs : Thread.resume s args = some (.ok s')) : s'.Shaped upper := by
  obtain ⟨frames, stack, ups⟩ := s
  simp only [Thread.resume, Option.bind_eq_bind, Option.bind_eq_some] at hs
  obtain ⟨c, hc, hs⟩ := hs
  rcases c with _ | s₁
  · cases hs
  obtain ⟨-, rfl⟩ := Thread.checkMode_eq_ok.1 hc
  obtain ⟨s₂, hr, ⟨⟩⟩ := Option.map_eq_some'.1 hs
  unfold Thread.resumeChecked at hr
  match frames, h with
  | .start f :: rest, _ =>
    dsimp only at hr
    split_ifs at hr with h0
    obtain ⟨-, rfl, rfl⟩ := h0
    exact shaped_pushCall (by rfl) (by trivial) (Nat.zero_le _) hr
  | .yielded :: rest, ⟨hbelow, hcallers⟩ =>
    exact shaped_returnTo hbelow hcallers (by simp) hr
  | [], _ | .lua _ :: _, _ | .callback .. :: _, _ | .sequence .. :: _, _ | .waitThread :: _, _
  | .result _ :: _, _ | .error _ :: _, _ => cases hr

theorem shaped_resumeErr {s s' : ThreadState} {e : Error} (h : s.Shaped upper)
    (hs : Thread.resumeErr s e = some (.ok s')) : s'.Shaped upper := by
  obtain ⟨frames, stack, ups⟩ := s
  simp only [Thread.resumeErr, Option.bind_eq_bind, Option.bind_eq_some] at hs
  obtain ⟨c, hc, hs⟩ := hs
  rcases c with _ | s₁
  · cases hs
  obtain ⟨-, rfl⟩ := Thread.checkMode_eq_ok.1 hc
  match frames, h with
  | .start f :: rest, ⟨hrest, _, _⟩ =>
    cases hs; subst hrest; trivial
  | .yielded :: rest, ⟨hbelow, hcallers⟩ =>
    cases hs; exact errorOn_of_below hbelow hcallers le_rfl
  | [], _ | .lua _ :: _, _ | .callback .. :: _, _ | .sequence .. :: _, _ | .waitThread :: _, _
  | .result _ :: _, _ | .error _ :: _, _ => cases hs

theorem shaped_reset {self : ThreadId} {s s' : ThreadState} {cells cells' : Cells}
    (hs : Thread.reset self s cells = some (s', cells')) : s'.Shaped upper := by
  simp only [Thread.reset, Option.bind_eq_bind, Option.bind_eq_some] at hs
  obtain ⟨_, -, hs⟩ := hs
  split_ifs at hs
  cases hs
  rfl

end Piccolo
