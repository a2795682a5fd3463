import Mathlib.Data.List.Infix
import Mathlib.Data.List.Sort
import Piccolo.Thread.Shape

/-!
# Frame-stack well-formedness and the stack shape, clause by clause

`FrameStackWF` states which frame may lie on which, and `StackShape` where the bottoms of the
frames lie on the value stack, in the terms the specification uses: consecutive frames, frames
with a bottom, the top frame. Both follow from `Shape`; `StackShape` needs `Shape true`, the frames
called from a Lua frame starting inside its register window.

## Main definitions

- `FrameStackWF` — frame-stack well-formedness
- `StackShape` — the stack-shape invariant
- `Beneath` — the frame `Shape` allows directly beneath another

## Main results

- `frameStackWF_of_shape`, `stackShape_of_shape`

## Design notes

Frames are listed top first, so `[g, f] <:+: s.frames` says that `f` lies directly beneath `g`,
and the bottoms, non-decreasing from the lowest frame to the top, are non-increasing along the
list.
-/

namespace Piccolo

namespace Frame

/-- The bottom of a frame that has one: a Lua frame, a callback, a sequence or a result. -/
def bottom? : Frame → Option Nat
  | .lua l => some l.bottom
  | .callback b _ | .sequence b _ _ | .result b => some b
  | _ => none

/-- A frame that takes the return of the frame directly above it: a Lua frame whose
`expected_return` is `Some`, or a sequence with no error pending. -/
def TakesReturn : Frame → Prop
  | .lua l => l.expectedReturn ≠ none
  | .sequence _ _ pendingError => pendingError = none
  | _ => False

/-- The frames whose frame beneath is constrained: Lua, Callback, Sequence, Yielded, WaitThread
and Error. -/
def NeedsCaller : Frame → Prop
  | .start _ | .result _ => False
  | _ => True

/-- What an `Error` frame may sit on besides a frame that takes a return: a suspended frame, or a
Lua frame whose `expected_return` is `None`. -/
def ErrorMaySitOn : Frame → Prop
  | .lua _ | .yielded | .waitThread => True
  | _ => False

end Frame

/-- Frame-stack well-formedness. An `Error` frame may sit on a Lua frame whose `expected_return`
is `None`: `run_vm` raises errors on a frame that `push_call` left without one. -/
structure FrameStackWF (s : ThreadState) : Prop where
  start_sole : ∀ f, .start f ∈ s.frames →
    s.frames = [.start f] ∧ s.stack = [] ∧ s.openUpvalues = []
  callback_top : ∀ b cb, .callback b cb ∉ s.frames.tail
  pending_top : ∀ b seq e, .sequence b seq (some e) ∉ s.frames.tail
  result_top : ∀ b, .result b ∉ s.frames.tail
  result_on : ∀ b rest, s.frames = .result b :: rest →
    rest = [] ∧ b = 0 ∨ rest.head? = some .yielded
  yielded_under : ∀ g, [g, .yielded] <:+: s.frames → (∃ b, g = .result b) ∨ ∃ e, g = .error e
  waitThread_under : ∀ g, [g, .waitThread] <:+: s.frames → ∃ e, g = .error e
  beneath : ∀ g f, [g, f] <:+: s.frames → g.NeedsCaller →
    f.TakesReturn ∨ (∃ e, g = .error e) ∧ f.ErrorMaySitOn
  sequence_bottom : ∀ g b seq pe, [g, .sequence b seq pe] <:+: s.frames →
    ∀ b', g.bottom? = some b' → b' = b

/-- The stack-shape invariant. -/
structure StackShape (s : ThreadState) : Prop where
  bottoms_sorted : (s.frames.filterMap Frame.bottom?).reverse.Sorted (· ≤ ·)
  bottom_le : ∀ f ∈ s.frames, ∀ b, f.bottom? = some b → b ≤ s.stack.length
  lua_bottom_lt : ∀ l, .lua l ∈ s.frames → l.bottom < l.base
  above_lua : ∀ g l, [g, .lua l] <:+: s.frames → ∀ b, g.bottom? = some b →
    l.base ≤ b ∧ b ≤ l.base + l.stackSize
  top_lua : ∀ l rest, s.frames = .lua l :: rest →
    if l.isVariable then l.base ≤ s.stack.length else s.stack.length = l.base + l.stackSize

-- ════════════════════════════════════════════════════════════════════════
-- Consecutive frames
-- ════════════════════════════════════════════════════════════════════════

theorem pair_infix_cons {α : Type} {g f a : α} {l : List α} :
    [g, f] <:+: a :: l ↔ (g = a ∧ l.head? = some f) ∨ [g, f] <:+: l := by
  rw [List.infix_cons_iff, List.cons_prefix_cons]
  cases l with
  | nil => simp
  | cons b l => simp [@eq_comm _ f b]

/-- A frame lies beneath the top exactly when some frame lies directly above it. -/
theorem mem_iff_pair {α : Type} {f : α} :
    ∀ {a : α} {t : List α}, f ∈ t ↔ ∃ g, [g, f] <:+: a :: t
  | a, [] => by simp [pair_infix_cons]
  | a, b :: t => by
    rw [List.mem_cons, mem_iff_pair]
    constructor
    · rintro (rfl | ⟨g, hg⟩)
      · exact ⟨a, pair_infix_cons.2 (.inl ⟨rfl, rfl⟩)⟩
      · exact ⟨g, pair_infix_cons.2 (.inr hg)⟩
    · rintro ⟨g, hg⟩
      rcases pair_infix_cons.1 hg with ⟨-, hb⟩ | hg
      · exact .inl (Option.some.inj hb).symm
      · exact .inr ⟨g, hg⟩

variable {upper : Bool}

/-- The frame `f` directly beneath `g`, as `Shape` places it. -/
def Beneath (upper : Bool) : Frame → Frame → Prop
  | .lua l, f => Below upper [f] l.bottom
  | .callback b _, f | .sequence b _ _, f => Below upper [f] b
  | .yielded, f | .waitThread, f => ∃ b, Below upper [f] b
  | .result _, f => f = .yielded
  | .error _, f => (∃ b, Below upper [f] b) ∨ f.ErrorMaySitOn
  | .start _, _ => False

/-- `Below` reads the frame on top only. -/
theorem below_head {f : Frame} {tail : List Frame} {b : Nat} (h : Below upper (f :: tail) b) :
    Below upper [f] b := by
  cases f <;> exact h

theorem below_of_head {rest : List Frame} {f : Frame} {b : Nat} (h : Below upper rest b)
    (hf : rest.head? = some f) : Below upper [f] b := by
  cases rest with
  | nil => cases hf
  | cons g tail => cases hf; exact below_head h

/-- The pairs of `g :: rest` are the top pair and the pairs of `rest`. -/
theorem beneath_cons {g : Frame} {rest : List Frame}
    (hg : ∀ f, rest.head? = some f → Beneath upper g f)
    (hr : ∀ g' f, [g', f] <:+: rest → Beneath upper g' f) :
    ∀ g' f, [g', f] <:+: g :: rest → Beneath upper g' f := fun g' f hp => by
  rcases pair_infix_cons.1 hp with ⟨rfl, hf⟩ | hp
  exacts [hg f hf, hr g' f hp]

theorem Callers.beneath : ∀ {rest : List Frame}, Callers upper rest →
    ∀ g f, [g, f] <:+: rest → Beneath upper g f
  | [], _ => fun g f hp => by simp at hp
  | .lua _ :: _, ⟨_, hb, hc⟩ =>
    beneath_cons (fun _ hf => below_of_head hb hf) (Callers.beneath hc)
  | .sequence .. :: _, ⟨hb, hc⟩ =>
    beneath_cons (fun _ hf => below_of_head hb hf) (Callers.beneath hc)

/-- Beneath a frame placed at `b` lie frames that can take its return. -/
theorem beneath_below {g : Frame} {rest : List Frame} {b : Nat}
    (hg : ∀ f, Below upper [f] b → Beneath upper g f) (hb : Below upper rest b)
    (hc : Callers upper rest) : ∀ g' f, [g', f] <:+: g :: rest → Beneath upper g' f :=
  beneath_cons (fun _ hf => hg _ (below_of_head hb hf)) (Callers.beneath hc)

theorem ErrorOn.beneath {e : Error} : ∀ {rest : List Frame} {len : Nat}, ErrorOn upper rest len →
    ∀ g f, [g, f] <:+: .error e :: rest → Beneath upper g f
  | [], _, _ => fun g f hp => by simp [pair_infix_cons] at hp
  | .lua l :: rest, _, ⟨hlt, _, hb, hc⟩ =>
    beneath_cons (fun _ hf => by cases hf; exact .inr trivial)
      (Callers.beneath (show Callers upper (.lua l :: rest) from ⟨hlt, hb, hc⟩))
  | .sequence b seq none :: rest, _, ⟨_, hb, hc⟩ =>
    beneath_cons (fun _ hf => by cases hf; exact .inl ⟨_, rfl, rfl⟩)
      (Callers.beneath (show Callers upper (.sequence b seq none :: rest) from ⟨hb, hc⟩))
  | .yielded :: _, _, ⟨hb, hc⟩ =>
    beneath_cons (fun _ hf => by cases hf; exact .inr trivial)
      (beneath_below (fun _ h => ⟨_, h⟩) hb hc)
  | .waitThread :: _, _, ⟨hb, hc⟩ =>
    beneath_cons (fun _ hf => by cases hf; exact .inr trivial)
      (beneath_below (fun _ h => ⟨_, h⟩) hb hc)

/-- Every frame of a thread of the right shape lies on a frame `Beneath` allows. -/
theorem Shape.beneath {frames : List Frame} {len : Nat} {ups : List UpValueId}
    (h : Shape upper frames len ups) : ∀ g f, [g, f] <:+: frames → Beneath upper g f := by
  match frames, h with
  | [], _ => intro g f hp; simp at hp
  | .lua _ :: _, ⟨_, _, hb, hc⟩ => exact beneath_below (fun _ h => h) hb hc
  | .callback .. :: _, ⟨_, hb, hc⟩ => exact beneath_below (fun _ h => h) hb hc
  | .sequence .. :: _, ⟨_, hb, hc⟩ => exact beneath_below (fun _ h => h) hb hc
  | .start _ :: _, ⟨hr, _, _⟩ => subst hr; intro g f hp; simp [pair_infix_cons] at hp
  | .yielded :: _, ⟨hb, hc⟩ => exact beneath_below (fun _ h => ⟨_, h⟩) hb hc
  | .waitThread :: _, ⟨hb, hc⟩ => exact beneath_below (fun _ h => ⟨_, h⟩) hb hc
  | .result _ :: _, ⟨_, .inl ⟨hr, _⟩⟩ => subst hr; intro g f hp; simp [pair_infix_cons] at hp
  | .result _ :: _, ⟨_, .inr ⟨_, hr, hb, hc⟩⟩ =>
    subst hr
    exact beneath_cons (fun _ hf => by cases hf; rfl) (beneath_below (fun _ h => ⟨_, h⟩) hb hc)
  | .error _ :: _, h => exact ErrorOn.beneath h

-- ════════════════════════════════════════════════════════════════════════
-- Bottoms
-- ════════════════════════════════════════════════════════════════════════

/-- The bottoms of the frames beneath a frame placed at `b`, top first, never increase and stay
at or below `b`. -/
theorem Callers.bottoms : ∀ {rest : List Frame} {b : Nat}, Below upper rest b →
    Callers upper rest →
    (rest.filterMap Frame.bottom?).Pairwise (· ≥ ·) ∧ ∀ b' ∈ rest.filterMap Frame.bottom?, b' ≤ b
  | [], _, _, _ => by simp
  | .lua l :: _, b, ⟨_, hbase, _⟩, ⟨hlt, hb, hc⟩ => by
    obtain ⟨hp, hle⟩ := Callers.bottoms hb hc
    simp only [List.filterMap_cons, Frame.bottom?, List.pairwise_cons, List.mem_cons]
    refine ⟨⟨hle, hp⟩, ?_⟩
    rintro b' (rfl | hb')
    · omega
    · have := hle b' hb'; omega
  | .sequence _ _ _ :: _, _, ⟨hbb, _⟩, ⟨hb, hc⟩ => by
    subst hbb
    obtain ⟨hp, hle⟩ := Callers.bottoms hb hc
    simp only [List.filterMap_cons, Frame.bottom?, List.pairwise_cons, List.mem_cons]
    exact ⟨⟨hle, hp⟩, by rintro b' (rfl | hb'); exacts [le_rfl, hle b' hb']⟩

/-- A frame with bottom `x ≤ len` on frames that can take its return. -/
theorem bottoms_cons {x len : Nat} {rest : List Frame} (hx : x ≤ len) (hb : Below upper rest x)
    (hc : Callers upper rest) :
    (x :: rest.filterMap Frame.bottom?).Pairwise (· ≥ ·) ∧
      ∀ b ∈ x :: rest.filterMap Frame.bottom?, b ≤ len := by
  obtain ⟨hp, hle⟩ := Callers.bottoms hb hc
  refine ⟨List.pairwise_cons.2 ⟨hle, hp⟩, fun b hm => ?_⟩
  rcases List.mem_cons.1 hm with rfl | hb'
  exacts [hx, (hle b hb').trans hx]

theorem ErrorOn.bottoms : ∀ {rest : List Frame} {len : Nat}, ErrorOn upper rest len →
    (rest.filterMap Frame.bottom?).Pairwise (· ≥ ·) ∧ ∀ b ∈ rest.filterMap Frame.bottom?, b ≤ len
  | [], _, _ => by simp
  | .lua _ :: _, _, ⟨_, hle, hb, hc⟩ => bottoms_cons hle hb hc
  | .sequence _ _ none :: _, _, ⟨hle, hb, hc⟩ => bottoms_cons hle hb hc
  | .yielded :: _, _, ⟨hb, hc⟩ | .waitThread :: _, _, ⟨hb, hc⟩ => by
    simpa only [List.filterMap_cons, Frame.bottom?] using Callers.bottoms hb hc

/-- The bottoms of a thread of the right shape, top first, never increase and stay within the
stack. -/
theorem Shape.bottoms {frames : List Frame} {len : Nat} {ups : List UpValueId}
    (h : Shape upper frames len ups) :
    (frames.filterMap Frame.bottom?).Pairwise (· ≥ ·) ∧
      ∀ b ∈ frames.filterMap Frame.bottom?, b ≤ len := by
  match frames, h with
  | [], _ => simp
  | .lua _ :: _, h =>
    have := h.base_le_of_lua
    exact bottoms_cons (by have := h.1; omega) h.2.2.1 h.2.2.2
  | .callback .. :: _, ⟨hle, hb, hc⟩ | .sequence .. :: _, ⟨hle, hb, hc⟩ => exact bottoms_cons hle hb hc
  | .start _ :: _, ⟨hr, _, _⟩ => subst hr; simp [Frame.bottom?]
  | .yielded :: _, ⟨hb, hc⟩ | .waitThread :: _, ⟨hb, hc⟩ =>
    simpa only [List.filterMap_cons, Frame.bottom?] using Callers.bottoms hb hc
  | .result _ :: _, ⟨hle, .inl ⟨hr, _⟩⟩ => subst hr; simpa [Frame.bottom?] using hle
  | .result _ :: _, ⟨hle, .inr ⟨_, hr, hb, hc⟩⟩ =>
    subst hr
    simpa only [List.filterMap_cons, Frame.bottom?] using bottoms_cons hle hb hc
  | .error _ :: rest, h =>
    have := ErrorOn.bottoms (show ErrorOn upper rest len from h)
    exact this

-- ════════════════════════════════════════════════════════════════════════
-- Lua frames
-- ════════════════════════════════════════════════════════════════════════

theorem lua_lt_cons {g : Frame} {rest : List Frame} (hg : ∀ l, g = .lua l → l.bottom < l.base)
    (hr : ∀ l, .lua l ∈ rest → l.bottom < l.base) : ∀ l, .lua l ∈ g :: rest → l.bottom < l.base :=
  fun l hl => (List.mem_cons.1 hl).elim (fun h => hg l h.symm) (hr l)

theorem Callers.lua_lt : ∀ {rest : List Frame}, Callers upper rest →
    ∀ l, .lua l ∈ rest → l.bottom < l.base
  | [], _ => by simp
  | .lua _ :: _, ⟨hlt, _, hc⟩ => lua_lt_cons (fun _ h => by cases h; exact hlt) (Callers.lua_lt hc)
  | .sequence .. :: _, ⟨_, hc⟩ => lua_lt_cons (fun _ h => by cases h) (Callers.lua_lt hc)

theorem ErrorOn.lua_lt : ∀ {rest : List Frame} {len : Nat}, ErrorOn upper rest len →
    ∀ l, .lua l ∈ rest → l.bottom < l.base
  | [], _, _ => by simp
  | .lua l :: rest, _, ⟨hlt, _, hb, hc⟩ =>
    Callers.lua_lt (show Callers upper (.lua l :: rest) from ⟨hlt, hb, hc⟩)
  | .sequence b seq none :: rest, _, ⟨_, hb, hc⟩ =>
    Callers.lua_lt (show Callers upper (.sequence b seq none :: rest) from ⟨hb, hc⟩)
  | .yielded :: _, _, ⟨_, hc⟩ | .waitThread :: _, _, ⟨_, hc⟩ =>
    lua_lt_cons (fun _ h => by cases h) (Callers.lua_lt hc)

/-- Every Lua frame of a thread of the right shape has its bottom beneath its base. -/
theorem Shape.lua_lt {frames : List Frame} {len : Nat} {ups : List UpValueId}
    (h : Shape upper frames len ups) : ∀ l, .lua l ∈ frames → l.bottom < l.base := by
  match frames, h with
  | [], _ => simp
  | .lua _ :: _, ⟨hlt, _, _, hc⟩ =>
    exact lua_lt_cons (fun _ h => by cases h; exact hlt) (Callers.lua_lt hc)
  | .callback .. :: _, ⟨_, _, hc⟩ | .sequence .. :: _, ⟨_, _, hc⟩
  | .yielded :: _, ⟨_, hc⟩ | .waitThread :: _, ⟨_, hc⟩ =>
    exact lua_lt_cons (fun _ h => by cases h) (Callers.lua_lt hc)
  | .start _ :: _, ⟨hr, _, _⟩ | .result _ :: _, ⟨_, .inl ⟨hr, _⟩⟩ => subst hr; simp
  | .result _ :: _, ⟨_, .inr ⟨_, hr, _, hc⟩⟩ =>
    subst hr
    exact lua_lt_cons (fun _ h => by cases h)
      (lua_lt_cons (fun _ h => by cases h) (Callers.lua_lt hc))
  | .error _ :: _, h => exact lua_lt_cons (fun _ h => by cases h) (ErrorOn.lua_lt h)

-- ════════════════════════════════════════════════════════════════════════
-- The specification from `Shape`
-- ════════════════════════════════════════════════════════════════════════

/-- A frame that `Below` admits takes a return. -/
theorem Below.takesReturn {f : Frame} {b : Nat} (h : Below upper [f] b) : f.TakesReturn := by
  cases f with
  | lua l => exact h.1
  | sequence _ _ _ => exact h.2
  | _ => exact h.elim

/-- A frame that no frame lies directly on is not beneath the top. -/
theorem Shape.not_mem_tail {frames : List Frame} {len : Nat} {ups : List UpValueId} {f : Frame}
    (h : Shape upper frames len ups) (hf : ∀ g, ¬ Beneath upper g f) : f ∉ frames.tail := by
  cases frames with
  | nil => simp
  | cons a t =>
    intro hm
    obtain ⟨g, hg⟩ := (mem_iff_pair (a := a)).1 hm
    exact hf g (h.beneath g f hg)

/-- What lies beneath a frame is a frame that takes a return, a suspended frame, or, beneath an
`Error` frame, a Lua frame. -/
theorem Beneath.lower {g f : Frame} (h : Beneath upper g f) :
    f.TakesReturn ∨ f = .yielded ∨ f.ErrorMaySitOn := by
  cases g with
  | lua _ | callback _ _ | sequence _ _ _ => exact .inl (Below.takesReturn h)
  | yielded | waitThread => exact .inl (Below.takesReturn h.choose_spec)
  | result _ => exact .inr (.inl h)
  | error _ => exact h.elim (fun h => .inl (Below.takesReturn h.choose_spec)) (.inr ∘ .inr)
  | start _ => exact h.elim

theorem Beneath.needsCaller {g f : Frame} (h : Beneath upper g f) (hn : g.NeedsCaller) :
    f.TakesReturn ∨ (∃ e, g = .error e) ∧ f.ErrorMaySitOn := by
  cases g with
  | lua _ | callback _ _ | sequence _ _ _ => exact .inl (Below.takesReturn h)
  | yielded | waitThread => exact .inl (Below.takesReturn h.choose_spec)
  | error e => exact h.elim (fun h => .inl (Below.takesReturn h.choose_spec)) (.inr ⟨⟨e, rfl⟩, ·⟩)
  | result _ | start _ => exact hn.elim

theorem Beneath.yielded {g : Frame} (h : Beneath upper g .yielded) :
    (∃ b, g = .result b) ∨ ∃ e, g = .error e := by
  cases g with
  | result b => exact .inl ⟨b, rfl⟩
  | error e => exact .inr ⟨e, rfl⟩
  | lua _ | callback _ _ | sequence _ _ _ | start _ => exact h.elim
  | yielded | waitThread => exact h.choose_spec.elim

theorem Beneath.waitThread {g : Frame} (h : Beneath upper g .waitThread) : ∃ e, g = .error e := by
  cases g with
  | error e => exact ⟨e, rfl⟩
  | result _ => cases h
  | lua _ | callback _ _ | sequence _ _ _ | start _ => exact h.elim
  | yielded | waitThread => exact h.choose_spec.elim

/-- A frame with a bottom directly on a sequence has the sequence's bottom. -/
theorem Beneath.sequence {g : Frame} {b b' : Nat} {seq : SequenceId} {pe : Option Error}
    (h : Beneath upper g (.sequence b seq pe)) (hb : g.bottom? = some b') : b' = b := by
  cases g with
  | lua _ | callback _ _ | sequence _ _ _ => cases hb; exact h.1
  | result _ => cases h
  | yielded | waitThread | error _ | start _ => cases hb

/-- A frame with a bottom directly on a Lua frame starts inside its register window. -/
theorem Beneath.lua {g : Frame} {l : LuaFields} {b : Nat} (h : Beneath true g (.lua l))
    (hb : g.bottom? = some b) : l.base ≤ b ∧ b ≤ l.base + l.stackSize := by
  cases g with
  | lua _ | callback _ _ | sequence _ _ _ => cases hb; exact ⟨h.2.1, h.2.2.1 rfl⟩
  | result _ => cases h
  | yielded | waitThread | error _ | start _ => cases hb

theorem frameStackWF_of_shape {s : ThreadState} (h : s.Shaped upper) : FrameStackWF s := by
  obtain ⟨frames, stack, ups⟩ := s
  have hb := Shape.beneath h
  refine ⟨fun f hf => ?_, fun b cb => h.not_mem_tail fun g hg => ?_,
    fun b seq e => h.not_mem_tail fun g hg => ?_, fun b => h.not_mem_tail fun g hg => ?_,
    fun b rest hr => ?_, fun g hg => (hb g _ hg).yielded, fun g hg => (hb g _ hg).waitThread,
    fun g f hg => (hb g f hg).needsCaller, fun g b seq pe hg b' => (hb g _ hg).sequence⟩
  · cases frames with
    | nil => cases hf
    | cons a t =>
      rcases List.mem_cons.1 hf with rfl | hm
      · obtain ⟨rfl, hl, hu⟩ := h
        exact ⟨rfl, List.length_eq_zero.1 hl, hu⟩
      · exact absurd hm (h.not_mem_tail fun g hg => by rcases hg.lower with h | h | h <;> cases h)
  · rcases hg.lower with h | h | h <;> cases h
  · rcases hg.lower with h | h | h <;> cases h
  · rcases hg.lower with h | h | h <;> cases h
  · subst hr
    rcases h.2 with h | ⟨_, rfl, -⟩
    exacts [.inl h, .inr rfl]

theorem stackShape_of_shape {s : ThreadState} (h : s.Shaped true) : StackShape s := by
  obtain ⟨frames, stack, ups⟩ := s
  have hbot := Shape.bottoms h
  refine ⟨List.pairwise_reverse.2 hbot.1,
    fun f hf b hb => hbot.2 b (List.mem_filterMap.2 ⟨f, hf, hb⟩), Shape.lua_lt h,
    fun g l hg b hb => (Shape.beneath h g _ hg).lua hb, fun l rest hr => ?_⟩
  subst hr
  exact h.2.1

/-- An `Error` frame has no bottom: pushed on a thread with the stack shape, it keeps it. -/
theorem StackShape.error_cons {s : ThreadState} (h : StackShape s) (e : Error) :
    StackShape { s with frames := .error e :: s.frames } := by
  refine ⟨by simpa [Frame.bottom?] using h.bottoms_sorted, fun f hf b hb => ?_, fun l hl => ?_,
    fun g l hg b hb => ?_, fun l rest hr => by cases hr⟩
  · rcases List.mem_cons.1 hf with rfl | hf
    exacts [(by cases hb), h.bottom_le f hf b hb]
  · rcases List.mem_cons.1 hl with hl | hl
    exacts [(by cases hl), h.lua_bottom_lt l hl]
  · rcases pair_infix_cons.1 hg with ⟨rfl, -⟩ | hg
    exacts [(by cases hb), h.above_lua g l hg b hb]

/-- Frames with no Lua frame on top keep the stack shape over any taller stack. -/
theorem StackShape.of_length_le {s s' : ThreadState} (h : StackShape s)
    (hf : s'.frames = s.frames) (hl : s.stack.length ≤ s'.stack.length)
    (htop : ∀ l rest, s.frames ≠ .lua l :: rest) : StackShape s' := by
  refine ⟨hf ▸ h.bottoms_sorted, fun f hm b hb => (h.bottom_le f (hf ▸ hm) b hb).trans hl,
    fun l hm => h.lua_bottom_lt l (hf ▸ hm), fun g l hg => h.above_lua g l (hf ▸ hg),
    fun l rest hr => absurd (hf ▸ hr) (htop l rest)⟩

end Piccolo
