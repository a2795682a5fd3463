import Piccolo.Executor.Changes

/-!
# Every reachable state keeps its open upvalue lists well formed

`close_upvalues` asserts that each cell it closes is open on the closing thread, and it and
`open_upvalue` search the open list by stack index. This file shows that every state the embedder
reaches satisfies what they rely on: on every thread the list holds only cells open on that
thread, at strictly increasing indices, all allocated; and, conversely, every cell open on a
thread is in that thread's list.

## Main definitions

- `Arena.OpenLists` — every thread of the arena has a well-formed open list
- `Arena.Listed` — every cell open on a thread is in the thread's open list

## Main results

- `System.Reaches.openLists`, `System.Reaches.listed` — both hold in every state the embedder
  reaches, whatever it does to a thread that waits in an executor
- `openLists_of_reachable` — the invariant spelled out, with no cell listed by two threads
- `openCells_of_reachable` — the cells open on a thread are exactly its list, and no two cells
  are open at the same slot
- `closeUpvalues_of_reachable`, `openUpvalue_of_reachable` — closing and opening on a reachable
  state behave as their specifications say, with no assumption on the list left
- `reset_of_reachable` — `Thread::reset` leaves no cell open on the thread

## Design notes

Both invariants are proved once per kind of `Arena.Change`. `Listed` is what makes `open_upvalue`
share cells across the whole run: a cell open at a slot can only be found through the list, so a
cell open but not listed would be duplicated by the next `open_upvalue` of its slot. The lists say
nothing of the stack's height, so `closeUpvalues_of_reachable` keeps as a hypothesis that every
open slot lies inside the stack, where `close_upvalues` reads it.
-/

namespace Piccolo

/-- Every thread of the arena has a well-formed open list. -/
def Arena.OpenLists (a : Arena) : Prop :=
  ∀ t, OpenList a.cells t (a.threads t).openUpvalues

namespace Arena

variable {a : Arena} {t : ThreadId} {s : ThreadState} {cells : Cells}

/-- Storing a state with the open list the thread had keeps every list well formed. -/
theorem OpenLists.setThread (h : a.OpenLists) (hs : s.openUpvalues = (a.threads t).openUpvalues) :
    (a.setThread t s).OpenLists := fun u => by
  by_cases hu : u = t
  · subst hu; simpa [hs] using h u
  · simpa [hu] using h u

/-- Closing upvalues of one thread keeps every list well formed. -/
theorem OpenLists.closes (h : a.OpenLists) (hc : Closes (a.threads t) s a.cells cells) :
    ({ a.setThread t s with cells } : Arena).OpenLists := fun u => by
  by_cases hu : u = t
  · subst hu; simpa using hc.openList (h u)
  · simpa [hu] using hc.openList_other (h t) (h u) (Ne.symm hu)

/-- Opening an upvalue on one thread keeps every list well formed. -/
theorem OpenLists.openUpvalue (h : a.OpenLists) {reg : Nat} {w : UpValueId}
    (ho : LuaRegisters.openUpvalue t (a.threads t) a.cells reg = some (w, s, cells)) :
    ({ a.setThread t s with cells } : Arena).OpenLists := fun u => by
  by_cases hu : u = t
  · subst hu; simpa using (h u).openUpvalue ho
  · simpa [hu] using (h u).openUpvalue_other ho

/-- Writing through a cell keeps every list well formed. -/
theorem OpenLists.setUpvalue (h : a.OpenLists) {threads : ThreadId → ThreadState} {w : UpValueId}
    {v : Value} (hs : LuaRegisters.setUpvalue t a.threads a.cells w v = some (threads, cells)) :
    (⟨threads, cells⟩ : Arena).OpenLists := fun u => by
  obtain ⟨_, -, he⟩ := LuaRegisters.threads_of_setUpvalue hs u
  show OpenList cells u (threads u).openUpvalues
  rw [he, LuaRegisters.cells_eq_of_setUpvalue hs]
  exact h u

/-- Every change keeps every list well formed. -/
theorem Change.openLists {a' : Arena} (hc : Change a a') (h : a.OpenLists) : a'.OpenLists := by
  cases hc with
  | keep hs => exact h.setThread hs
  | close hc => exact h.closes hc
  | openUpvalue ho => exact h.openUpvalue ho
  | setUpvalue hs => exact h.setUpvalue hs

end Arena

/-- Every state the embedder reaches has a well-formed open list on every thread. -/
theorem System.Reaches.openLists {host : Host} {window : Bool} {sys : System}
    (h : System.Reaches host window sys) : sys.arena.OpenLists :=
  h.arena_of_changes _ (fun _ => OpenList.nil) fun hc h => hc.openLists h

-- ════════════════════════════════════════════════════════════════════════
-- Every open cell is listed
-- ════════════════════════════════════════════════════════════════════════

/-- Every cell open on a thread is in that thread's open list. -/
def Arena.Listed (a : Arena) : Prop :=
  ∀ u t i, a.cells.state u = .open t i → u ∈ (a.threads t).openUpvalues

namespace Arena

variable {a a' : Arena}

/-- Every change keeps every open cell listed: closing removes from a list only cells it closes,
and opening lists the cell it makes. -/
theorem Change.listed (hc : Change a a') (h : a.Listed) : a'.Listed := by
  cases hc with
  | @keep t s hs =>
    intro u t' i hu
    by_cases ht : t' = t
    · subst ht; simpa [hs] using h u t' i hu
    · simpa [ht] using h u t' i hu
  | @close t s cells hc =>
    obtain ⟨k, hk, -, hs, hcl⟩ := hc
    intro u t' i hu
    by_cases hd : u ∈ (a.threads t).openUpvalues.drop k
    · obtain ⟨_, _, _, -, -, hc⟩ := hcl u hd
      rw [hc] at hu
      cases hu
    rw [hs u hd] at hu
    by_cases ht : t' = t
    · subst ht
      have hm := h u t' i hu
      rw [← List.take_append_drop k (a.threads t').openUpvalues] at hm
      simpa [hk] using (List.mem_append.1 hm).resolve_right hd
    · simpa [ht] using h u t' i hu
  | @openUpvalue t s cells reg w ho =>
    intro u t' i hu
    rcases (LuaRegisters.openUpvalue_cases ho).2 with ⟨rfl, rfl⟩ | ⟨j, ind, rfl, rfl⟩
    · by_cases ht : t' = t
      · subst ht; simpa using h u t' i hu
      · simpa [ht] using h u t' i hu
    by_cases hn : u = a.cells.next
    · subst hn
      simp only [Cells.new, Function.update_same, UpValueState.open.injEq] at hu
      obtain ⟨rfl, -⟩ := hu
      simp
    simp only [Cells.new, Function.update_noteq hn] at hu
    by_cases ht : t' = t
    · subst ht
      have hm := h u t' i hu
      rw [← List.take_append_drop j (a.threads t').openUpvalues] at hm
      simp only [setThread_threads_self, List.mem_append, List.mem_cons]
      exact (List.mem_append.1 hm).imp id Or.inr
    · simpa [ht] using h u t' i hu
  | @setUpvalue t threads cells w v hs =>
    intro u t' i hu
    obtain ⟨_, -, he⟩ := LuaRegisters.threads_of_setUpvalue hs t'
    rw [LuaRegisters.cells_eq_of_setUpvalue hs] at hu
    show u ∈ (threads t').openUpvalues
    rw [he]
    exact h u t' i hu

end Arena

/-- In every state the embedder reaches, every open cell is in the open list of its thread. -/
theorem System.Reaches.listed {host : Host} {window : Bool} {sys : System}
    (h : System.Reaches host window sys) : sys.arena.Listed :=
  h.arena_of_changes _ (fun _ _ _ hu => by cases hu) fun hc h => hc.listed h

-- ════════════════════════════════════════════════════════════════════════
-- What the lists give on a reachable state
-- ════════════════════════════════════════════════════════════════════════

section Reachable

variable {host : Host} {window : Bool} {sys : System}

/-- Executors `0` and `1` each running a closure with two registers on its own thread, and a
round of executor `0` that opens an upvalue at register `0`: cell `0` is then open at slot `1` of
thread `0`, the only entry of its list. -/
theorem upvalue_opened_reachable :
    ∃ sys : System, System.Reaches Host.functionsOnly false sys ∧
      sys.arena.threads 0 =
        ⟨[.lua ⟨0, 1, false, 0, 2, none⟩], [.function (.closure ⟨1, ⟨0, 2⟩⟩), .nil, .nil], [0]⟩ ∧
      sys.arena.cells = ⟨Function.update (fun _ => .closed .nil) 0 (.open 0 1), 1⟩ :=
  ⟨_, System.Reachable.reaches (.round 0 ⟨[], .ok .return, [], .ok .pending, [.openUpvalue 0]⟩
    (.start 1 1 (.closure ⟨2, ⟨0, 2⟩⟩) [] (.start 0 0 (.closure ⟨1, ⟨0, 2⟩⟩) [] .init rfl rfl)
      rfl rfl) (fun h => by cases h) rfl), rfl, rfl⟩

/-- In every reachable state, each thread lists only cells open on it, at strictly increasing
stack indices, and all allocated; and no two threads list the same cell. -/
theorem openLists_of_reachable (h : System.Reaches host window sys) (t : ThreadId) :
    let ups := (sys.arena.threads t).openUpvalues
    (∀ u ∈ ups, ∃ i, sys.arena.cells.state u = .open t i) ∧
      (ups.map sys.arena.cells.openIndex).Sorted (· < ·) ∧ (∀ u ∈ ups, u < sys.arena.cells.next) ∧
      ∀ t', t' ≠ t → ∀ u ∈ ups, u ∉ (sys.arena.threads t').openUpvalues :=
  have ht := h.openLists t
  ⟨fun u hu => ⟨_, ht.onThread u hu⟩, ht.sorted, ht.allocated,
    fun t' hne _ hu => ht.not_mem (h.openLists t') (Ne.symm hne) hu⟩

/-- The list of thread `0` of `upvalue_opened_reachable`, its one open cell, is well formed. -/
theorem openLists_one_cell :
    ∃ sys : System, System.Reaches Host.functionsOnly false sys ∧
      (sys.arena.threads 0).openUpvalues = [0] ∧
      let ups := (sys.arena.threads 0).openUpvalues
      (∀ u ∈ ups, ∃ i, sys.arena.cells.state u = .open 0 i) ∧
        (ups.map sys.arena.cells.openIndex).Sorted (· < ·) ∧ (∀ u ∈ ups, u < sys.arena.cells.next) ∧
        ∀ t', t' ≠ 0 → ∀ u ∈ ups, u ∉ (sys.arena.threads t').openUpvalues :=
  let ⟨sys, h, h0, _⟩ := upvalue_opened_reachable
  ⟨sys, h, by rw [h0], openLists_of_reachable h 0⟩

/-- In every reachable state, closing the upvalues of a thread whose open slots lie inside its
stack closes exactly the cells open at or above `bottom`, each over the value in its slot, keeps
the cells below `bottom` listed, and changes no other cell. -/
theorem closeUpvalues_of_reachable (h : System.Reaches host window sys) (t : ThreadId)
    (hlt : ∀ u ∈ (sys.arena.threads t).openUpvalues,
      sys.arena.cells.openIndex u < (sys.arena.threads t).stack.length) (bottom : Nat) :
    let s := sys.arena.threads t
    let cells := sys.arena.cells
    ∃ cells', s.closeUpvalues t cells bottom = some ({ s with
        openUpvalues := s.openUpvalues.takeWhile fun u => cells.openIndex u < bottom }, cells') ∧
      (∀ u ∈ s.openUpvalues, bottom ≤ cells.openIndex u →
        ∃ v, s.stack[cells.openIndex u]? = some v ∧ cells'.state u = .closed v) ∧
      ∀ u, (u ∈ s.openUpvalues → cells.openIndex u < bottom) → cells'.state u = cells.state u :=
  ThreadState.closeUpvalues_spec (h.openLists t).onThread (h.openLists t).sorted hlt bottom

/-- Closing from slot `1` on thread `0` of `upvalue_opened_reachable` closes its one cell. -/
theorem closeUpvalues_one_cell :
    ∃ sys : System, System.Reaches Host.functionsOnly false sys ∧
      (∀ u ∈ (sys.arena.threads 0).openUpvalues,
        sys.arena.cells.openIndex u < (sys.arena.threads 0).stack.length) ∧
      let s := sys.arena.threads 0
      let cells := sys.arena.cells
      ∃ cells', s.closeUpvalues 0 cells 1 = some ({ s with
          openUpvalues := s.openUpvalues.takeWhile fun u => cells.openIndex u < 1 }, cells') ∧
        (∀ u ∈ s.openUpvalues, 1 ≤ cells.openIndex u →
          ∃ v, s.stack[cells.openIndex u]? = some v ∧ cells'.state u = .closed v) ∧
        ∀ u, (u ∈ s.openUpvalues → cells.openIndex u < 1) → cells'.state u = cells.state u :=
  let ⟨sys, h, h0, hc⟩ := upvalue_opened_reachable
  have hlt : ∀ u ∈ (sys.arena.threads 0).openUpvalues,
      sys.arena.cells.openIndex u < (sys.arena.threads 0).stack.length := by
    simp [h0, hc, Cells.openIndex, openUpvalueInd]
  ⟨sys, h, hlt, closeUpvalues_of_reachable h 0 hlt 1⟩

/-- In every reachable state, opening an upvalue on a thread running a Lua frame shares cells: the
cell open at the register's slot comes back with nothing changed, and otherwise one new cell, open
at the slot on this thread, is inserted where the indices stay increasing. -/
theorem openUpvalue_of_reachable (h : System.Reaches host window sys) (t : ThreadId)
    {bottom base : Nat} (hr : LuaRegisters.registers (sys.arena.threads t) = some (bottom, base))
    (reg : Nat) :
    let s := sys.arena.threads t
    let cells := sys.arena.cells
    (∀ u ∈ s.openUpvalues, cells.openIndex u = base + reg →
      LuaRegisters.openUpvalue t s cells reg = some (u, s, cells)) ∧
    ((∀ u ∈ s.openUpvalues, cells.openIndex u ≠ base + reg) → ∃ i ≤ s.openUpvalues.length,
      LuaRegisters.openUpvalue t s cells reg = some (cells.next,
        { s with openUpvalues := s.openUpvalues.take i ++ cells.next :: s.openUpvalues.drop i },
        (cells.new (.open t (base + reg))).2) ∧
      ((s.openUpvalues.take i ++ cells.next :: s.openUpvalues.drop i).map
        (cells.new (.open t (base + reg))).2.openIndex).Sorted (· < ·)) :=
  have ht := h.openLists t
  ⟨fun _ hu hind => openUpvalue_existing hr ht.openSorted hu hind, fun hnone =>
    (openUpvalue_new hr ht.openSorted ht.allocated hnone).imp fun _ ⟨hle, hs, _⟩ =>
      ⟨hle, hs, (ht.openUpvalue hs).sorted⟩⟩

/-- Opening register `0` on thread `0` of `upvalue_opened_reachable` finds the cell open at its
slot. -/
theorem openUpvalue_one_cell :
    ∃ sys : System, System.Reaches Host.functionsOnly false sys ∧
      LuaRegisters.registers (sys.arena.threads 0) = some (0, 1) ∧
      let s := sys.arena.threads 0
      let cells := sys.arena.cells
      (∀ u ∈ s.openUpvalues, cells.openIndex u = 1 + 0 →
        LuaRegisters.openUpvalue 0 s cells 0 = some (u, s, cells)) ∧
      ((∀ u ∈ s.openUpvalues, cells.openIndex u ≠ 1 + 0) → ∃ i ≤ s.openUpvalues.length,
        LuaRegisters.openUpvalue 0 s cells 0 = some (cells.next,
          { s with openUpvalues := s.openUpvalues.take i ++ cells.next :: s.openUpvalues.drop i },
          (cells.new (.open 0 (1 + 0))).2) ∧
        ((s.openUpvalues.take i ++ cells.next :: s.openUpvalues.drop i).map
          (cells.new (.open 0 (1 + 0))).2.openIndex).Sorted (· < ·)) :=
  let ⟨sys, h, h0, _⟩ := upvalue_opened_reachable
  have hr : LuaRegisters.registers (sys.arena.threads 0) = some (0, 1) := by
    rw [h0]
    rfl
  ⟨sys, h, hr, openUpvalue_of_reachable h 0 hr 0⟩

/-- In a reachable state no two cells are open at the same slot of the same thread. -/
theorem System.Reaches.openCell_unique (h : System.Reaches host window sys) {t : ThreadId}
    {u w : UpValueId} {i : Nat} (hu : sys.arena.cells.state u = .open t i)
    (hw : sys.arena.cells.state w = .open t i) : u = w := by
  -- a listed cell is open at its open index, and the indices of a list are distinct
  have hind : ∀ {u i}, sys.arena.cells.state u = .open t i → sys.arena.cells.openIndex u = i :=
    fun {u i} hu => by simp [Cells.openIndex, openUpvalueInd, hu]
  exact List.inj_on_of_nodup_map (h.openLists t).sorted.nodup (h.listed u t i hu)
    (h.listed w t i hw) ((hind hu).trans (hind hw).symm)

/-- In every reachable state, the cells open on a thread are exactly the cells of its open list,
and no two cells are open at the same slot of the same thread: every closure that captures a
slot shares one cell. -/
theorem openCells_of_reachable (h : System.Reaches host window sys) (t : ThreadId) :
    (∀ u, (∃ i, sys.arena.cells.state u = .open t i) ↔ u ∈ (sys.arena.threads t).openUpvalues) ∧
    ∀ u w i, sys.arena.cells.state u = .open t i → sys.arena.cells.state w = .open t i → u = w :=
  ⟨fun u => ⟨fun ⟨i, hu⟩ => h.listed u t i hu, fun hu => ⟨_, (h.openLists t).onThread u hu⟩⟩,
    fun _ _ _ hu hw => h.openCell_unique hu hw⟩

/-- The cell of `upvalue_opened_reachable` is the only cell open on thread `0`. -/
theorem openCells_one_cell :
    ∃ sys : System, System.Reaches Host.functionsOnly false sys ∧
      sys.arena.cells.state 0 = .open 0 1 ∧
      (∀ u, (∃ i, sys.arena.cells.state u = .open 0 i) ↔ u ∈ (sys.arena.threads 0).openUpvalues) ∧
      ∀ u w i, sys.arena.cells.state u = .open 0 i → sys.arena.cells.state w = .open 0 i → u = w :=
  let ⟨sys, h, _, hc⟩ := upvalue_opened_reachable
  ⟨sys, h, by rw [hc]; rfl, openCells_of_reachable h 0⟩

/-- In every reachable state, resetting a thread leaves it with no frame, value or open upvalue,
and no cell anywhere open on it: the cells open on it are exactly its list, and closing from slot
`0` closes the whole list. -/
theorem reset_of_reachable (h : System.Reaches host window sys) {t : ThreadId}
    {s : ThreadState} {cells : Cells}
    (hr : Thread.reset t (sys.arena.threads t) sys.arena.cells = some (s, cells)) :
    s.frames = [] ∧ s.stack = [] ∧ s.openUpvalues = [] ∧ ∀ u i, cells.state u ≠ .open t i := by
  obtain ⟨⟨k, hk, -, hsame, hclosed⟩, hnil⟩ := Thread.closes_of_reset hr
  have hclear : s.frames = [] ∧ s.stack = [] := by
    simp only [Thread.reset, Option.bind_eq_bind, Option.bind_eq_some] at hr
    obtain ⟨_, -, hr⟩ := hr
    split_ifs at hr
    cases hr
    exact ⟨rfl, rfl⟩
  refine ⟨hclear.1, hclear.2, hnil, fun u i hu => ?_⟩
  by_cases hd : u ∈ (sys.arena.threads t).openUpvalues.drop k
  · -- a listed cell at or above slot `0` was closed
    obtain ⟨_, _, _, -, -, hc⟩ := hclosed u hd
    rw [hc] at hu
    cases hu
  · -- any other open cell was open before, so listed, and the part of the list kept is empty
    have hl := h.listed u t i (hsame u hd ▸ hu)
    rw [← List.take_append_drop k (sys.arena.threads t).openUpvalues, ← hk, hnil] at hl
    exact hd hl

/-- Resetting thread `0` of `upvalue_opened_reachable` closes its one cell. -/
theorem reset_one_cell :
    ∃ (sys : System) (s : ThreadState) (cells : Cells),
      System.Reaches Host.functionsOnly false sys ∧ sys.arena.cells.state 0 = .open 0 1 ∧
      Thread.reset 0 (sys.arena.threads 0) sys.arena.cells = some (s, cells) ∧
      s.frames = [] ∧ s.stack = [] ∧ s.openUpvalues = [] ∧ ∀ u i, cells.state u ≠ .open 0 i :=
  let ⟨sys, h, h0, hc⟩ := upvalue_opened_reachable
  have hr : Thread.reset 0 (sys.arena.threads 0) sys.arena.cells = some (_, _) := by
    rw [h0, hc]
    rfl
  ⟨sys, _, _, h, by rw [hc]; rfl, hr, reset_of_reachable h hr⟩

end Reachable

end Piccolo
