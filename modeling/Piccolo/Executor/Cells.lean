import Piccolo.Executor.OpenLists

/-!
# What an upvalue cell holds over a run

An upvalue cell either aliases a stack slot of a thread (open) or owns a value (closed). This file
gives the value a cell denotes, shows that `get_upvalue` returns it, and proves how the cells
evolve over every run of the embedder: a cell is only ever closed, closing never changes what any
cell denotes, and a write through a cell changes what no other cell denotes.

## Main definitions

- `UpValueState.Evolves`, `Cells.Evolves` — how a cell may change: not at all, or from open to
  closed
- `Arena.read` — the value a cell denotes

## Main results

- `cells_evolve_of_steps` — over every run of the embedder, the allocation pointer never goes back
  and every allocated cell keeps its state or goes from open to closed
- `LuaRegisters.read_of_getUpvalue` — `get_upvalue` returns the value the cell denotes
- `reads_of_closing_reachable` — closing upvalues leaves the value of every cell unchanged
- `reads_of_setUpvalue_reachable` — a write through a cell changes the value of no other cell

## Design notes

`set_upvalue` on a closed cell stores the value the cell already holds, so a closed cell never
changes at all: `UpValueState.Evolves` holds it to its value. That closing is invisible needs both
list invariants: the closed cells are the listed ones, and a cell left open on the thread is
listed, so below the height the stack is cut back to.
-/

namespace Piccolo

-- ════════════════════════════════════════════════════════════════════════
-- How cells evolve
-- ════════════════════════════════════════════════════════════════════════

/-- How a cell may change from one state of the arena to a later one: not at all, or from open to
closed. -/
def UpValueState.Evolves (x y : UpValueState) : Prop :=
  y = x ∨ ∃ t i v, x = .open t i ∧ y = .closed v

namespace UpValueState

theorem Evolves.refl (x : UpValueState) : x.Evolves x := .inl rfl

theorem Evolves.trans {x y z : UpValueState} (h : x.Evolves y) (h' : y.Evolves z) :
    x.Evolves z := by
  rcases h with rfl | ⟨t, i, v, rfl, rfl⟩
  · exact h'
  · rcases h' with rfl | ⟨_, _, _, h, -⟩
    · exact .inr ⟨t, i, v, rfl, rfl⟩
    · cases h

end UpValueState

/-- How the cells may change: the allocation pointer never goes back, and every allocated cell
evolves. -/
def Cells.Evolves (c c' : Cells) : Prop :=
  c.next ≤ c'.next ∧ ∀ u < c.next, (c.state u).Evolves (c'.state u)

namespace Cells.Evolves

variable {c c' c'' : Cells}

theorem refl (c : Cells) : c.Evolves c := ⟨le_rfl, fun _ _ => .refl _⟩

theorem trans (h : c.Evolves c') (h' : c'.Evolves c'') : c.Evolves c'' :=
  ⟨h.1.trans h'.1, fun u hu => (h.2 u hu).trans (h'.2 u (lt_of_lt_of_le hu h.1))⟩

end Cells.Evolves

namespace Arena

variable {a a' : Arena}

/-- Every change lets the cells evolve: closing closes open cells, opening allocates a new one,
and a write through a cell changes none. -/
theorem Change.evolves (hc : Change a a') : a.cells.Evolves a'.cells := by
  cases hc with
  | keep _ => exact .refl _
  | @close t s cells hc =>
    obtain ⟨k, -, hn, hs, hcl⟩ := hc
    refine ⟨hn.ge, fun u _ => ?_⟩
    by_cases hd : u ∈ (a.threads t).openUpvalues.drop k
    · obtain ⟨t, i, v, ho, -, hc⟩ := hcl u hd
      exact .inr ⟨t, i, v, ho, hc⟩
    · exact .inl (hs u hd)
  | openUpvalue ho =>
    rcases (LuaRegisters.openUpvalue_cases ho).2 with ⟨-, rfl⟩ | ⟨_, _, -, rfl⟩
    · exact .refl _
    · exact ⟨Nat.le_succ _, fun u hu => .inl (Function.update_noteq (Nat.ne_of_lt hu) _ _)⟩
  | setUpvalue hs =>
    show a.cells.Evolves _
    rw [LuaRegisters.cells_eq_of_setUpvalue hs]
    exact .refl _

theorem changes_evolves (hc : Relation.ReflTransGen Change a a') : a.cells.Evolves a'.cells := by
  induction hc with
  | refl => exact .refl _
  | tail _ hs ih => exact ih.trans hs.evolves

end Arena

/-- Over every run of the embedder's operations, from any state: the allocation pointer never goes
back, and every allocated cell either keeps its state or goes from open to closed. A closed cell
never changes again, not even its value, and never reopens. -/
theorem cells_evolve_of_steps {host : Host} {window : Bool} {sys sys' : System}
    (h : Relation.ReflTransGen (System.Step host window) sys sys') :
    sys.arena.cells.next ≤ sys'.arena.cells.next ∧
      ∀ u < sys.arena.cells.next, sys'.arena.cells.state u = sys.arena.cells.state u ∨
        ∃ t i v, sys.arena.cells.state u = .open t i ∧ sys'.arena.cells.state u = .closed v :=
  Arena.changes_evolves (System.changes_of_steps h)

/-- A thread running a closure with two registers, whose cell `0` is open at slot `1`: a round of
`run_vm` closing the upvalues from register `0` closes the cell over `Nil`, its slot's value. -/
theorem cell_closed_by_round :
    let sys : System := ⟨⟨Function.update (fun _ => .empty) 0
        ⟨[.lua ⟨0, 1, false, 0, 2, none⟩], [.function (.closure ⟨1, ⟨0, 2⟩⟩), .nil, .nil], [0]⟩,
        ⟨Function.update (fun _ => .closed .nil) 0 (.open 0 1), 1⟩⟩,
      Function.update (fun _ => []) 0 [0]⟩
    ∃ sys' : System, Relation.ReflTransGen (System.Step Host.functionsOnly false) sys sys' ∧
      sys'.arena.cells.state 0 = .closed .nil ∧
      sys.arena.cells.next ≤ sys'.arena.cells.next ∧
      ∀ u < sys.arena.cells.next, sys'.arena.cells.state u = sys.arena.cells.state u ∨
        ∃ t i v, sys.arena.cells.state u = .open t i ∧ sys'.arena.cells.state u = .closed v := by
  intro sys
  have h : System.Step Host.functionsOnly false sys _ :=
    .round 0 ⟨[], .ok .return, [], .ok .pending, [.closeUpvalues 0]⟩ (fun h => by cases h)
      (by simp only [sys]; rfl)
  exact ⟨_, .single h, rfl, cells_evolve_of_steps (.single h)⟩

-- ════════════════════════════════════════════════════════════════════════
-- The value of a cell
-- ════════════════════════════════════════════════════════════════════════

/-- The value cell `u` denotes: the slot of the thread it is open on, or the value it owns. -/
def Arena.read (a : Arena) (u : UpValueId) : Option Value :=
  match a.cells.state u with
  | .open t i => (a.threads t).stack[i]?
  | .closed v => some v

/-- `get_upvalue` returns the value the cell denotes. -/
theorem LuaRegisters.read_of_getUpvalue {self : ThreadId} {a : Arena} {u : UpValueId} {v : Value}
    (h : LuaRegisters.getUpvalue self a.threads a.cells u = some v) : a.read u = some v := by
  simp only [LuaRegisters.getUpvalue, Option.bind_eq_bind, Option.bind_eq_some] at h
  obtain ⟨⟨bottom, base⟩, -, h⟩ := h
  rcases hu : a.cells.state u with ⟨t, ind⟩ | w <;> simp only [hu] at h <;>
    simp only [Arena.read, hu]
  · split_ifs at h with ht
    · subst ht
      rw [Vec.get, List.getElem?_take] at h
      split_ifs at h
      exact h
    · exact h
  · exact h

namespace Arena

variable {a : Arena} {t : ThreadId} {s : ThreadState} {cells : Cells}

/-- Closing upvalues of a thread leaves the value of every cell unchanged, as long as the
thread's new stack agrees with the old one at the slots of the cells it keeps open. -/
theorem read_of_closes (hl : a.Listed) (ho : OpenList a.cells t (a.threads t).openUpvalues)
    (hc : Closes (a.threads t) s a.cells cells)
    (hstack : ∀ u ∈ s.openUpvalues,
      s.stack[a.cells.openIndex u]? = (a.threads t).stack[a.cells.openIndex u]?) (u : UpValueId) :
    ({ a.setThread t s with cells } : Arena).read u = a.read u := by
  obtain ⟨k, hk, -, hs, hcl⟩ := hc
  by_cases hd : u ∈ (a.threads t).openUpvalues.drop k
  · -- a closed cell owns the value its slot held
    obtain ⟨t', i, v, hopen, hv, hclosed⟩ := hcl u hd
    have ht : t' = t := by
      have := ho.onThread u (List.mem_of_mem_drop hd)
      rw [hopen] at this
      exact (UpValueState.open.inj this).1
    subst ht
    simp only [read, hclosed, hopen, hv]
  · -- any other cell keeps its state, and a cell left open on `t` is kept in its list
    simp only [read, hs u hd]
    split
    · rename_i t' i hopen
      by_cases ht : t' = t
      · subst ht
        have hmem : u ∈ s.openUpvalues := by
          have hm := hl u t' i hopen
          rw [← List.take_append_drop k (a.threads t').openUpvalues] at hm
          rw [hk]
          exact (List.mem_append.1 hm).resolve_right hd
        have hi : a.cells.openIndex u = i := by simp [Cells.openIndex, openUpvalueInd, hopen]
        simpa [hi] using hstack u hmem
      · simp [ht]
    · rfl

/-- Thread `t` closing upvalues from `bottom` and cutting its stack back to `bottom`, as error
unwinding does, leaves the value of every cell unchanged. -/
theorem read_of_unwind (hl : a.Listed) (ho : OpenList a.cells t (a.threads t).openUpvalues)
    {frames : List Frame} {bottom : Nat} {s₁ : ThreadState}
    (hc : ThreadState.closeUpvalues t { a.threads t with frames } a.cells bottom = some (s₁, cells))
    (frames' : List Frame) (u : UpValueId) :
    ({ a.setThread t { s₁ with stack := s₁.stack.take bottom, frames := frames' } with cells } :
      Arena).read u = a.read u := by
  have hkept := ThreadState.kept_of_closeUpvalues (s := { a.threads t with frames }) ho hc
  have hstack : s₁.stack = (a.threads t).stack :=
    (congrArg ThreadState.stack (ThreadState.eq_of_closeUpvalues hc) :)
  have hc' : Closes (a.threads t) { s₁ with stack := s₁.stack.take bottom, frames := frames' }
      a.cells cells := (ThreadState.closes_of_closeUpvalues hc).congr_right rfl
  refine read_of_closes hl ho hc' (fun w hw => ?_) u
  rw [List.getElem?_take, if_pos (hkept w hw), hstack]

end Arena

-- ════════════════════════════════════════════════════════════════════════
-- Reads over reachable states
-- ════════════════════════════════════════════════════════════════════════

section Reachable

variable {host : Host} {window : Bool} {sys : System}

/-- In every reachable state, closing upvalues never changes the value of any cell: not the
`CLOSE` operation of `run_vm`, not the unwinding of an error through a Lua frame, which also cuts
the stack back to the frame's bottom, and not `Thread::reset`, which also clears the stack. -/
theorem reads_of_closing_reachable (h : System.Reaches host window sys) (t : ThreadId) :
    (∀ (host' : Host) reg a' e, VmOp.exec host' t sys.arena (.closeUpvalues reg) = some (a', e) →
      ∀ u, a'.read u = sys.arena.read u) ∧
    (∀ (host' : Host) r ts a' ts' err l rest,
      (sys.arena.threads t).frames = .error err :: .lua l :: rest →
      Executor.dispatch host' r sys.arena ts t = some (a', ts') →
      ∀ u, a'.read u = sys.arena.read u) ∧
    ∀ s cells, Thread.reset t (sys.arena.threads t) sys.arena.cells = some (s, cells) →
      ∀ u, ({ sys.arena.setThread t s with cells } : Arena).read u = sys.arena.read u := by
  have hl := h.listed
  have ho := h.openLists t
  refine ⟨fun host' reg a' e hx u => ?_, fun host' r ts a' ts' err l rest hf hd u => ?_,
    fun s cells hr u => ?_⟩
  · -- `CLOSE` keeps the stack
    obtain ⟨⟨s, cells⟩, hs, ⟨⟩⟩ := Option.bind_eq_some.1 hx
    have hstack : s.stack = (sys.arena.threads t).stack := by
      rw [LuaRegisters.closeUpvalues_eq] at hs
      obtain ⟨_, -, hs⟩ := Option.bind_eq_some.1 hs
      exact (congrArg ThreadState.stack (ThreadState.eq_of_closeUpvalues hs) :)
    exact Arena.read_of_closes hl ho (LuaRegisters.closes_of_closeUpvalues hs)
      (fun _ _ => by rw [hstack]) u
  · -- unwinding closes from the Lua frame's bottom and cuts the stack there
    simp only [Executor.dispatch, hf, Option.bind_eq_bind] at hd
    obtain ⟨⟨s₁, c₁⟩, hc, ⟨⟩⟩ := Option.bind_eq_some.1 hd
    exact Arena.read_of_unwind hl ho hc _ u
  · -- `reset` keeps no cell open, so clearing the stack hides none
    obtain ⟨hc, hnil⟩ := Thread.closes_of_reset hr
    exact Arena.read_of_closes hl ho hc (fun w hw => by simp [hnil] at hw) u

/-- Closing on the state of `upvalue_opened_reachable`, where cell `0` is open on thread `0`,
changes the value of no cell. -/
theorem reads_of_closing_one_cell :
    ∃ sys : System, System.Reaches Host.functionsOnly false sys ∧
      sys.arena.cells.state 0 = .open 0 1 ∧
      (∀ (host' : Host) reg a' e,
        VmOp.exec host' 0 sys.arena (.closeUpvalues reg) = some (a', e) →
        ∀ u, a'.read u = sys.arena.read u) ∧
      (∀ (host' : Host) r ts a' ts' err l rest,
        (sys.arena.threads 0).frames = .error err :: .lua l :: rest →
        Executor.dispatch host' r sys.arena ts 0 = some (a', ts') →
        ∀ u, a'.read u = sys.arena.read u) ∧
      ∀ s cells, Thread.reset 0 (sys.arena.threads 0) sys.arena.cells = some (s, cells) →
        ∀ u, ({ sys.arena.setThread 0 s with cells } : Arena).read u = sys.arena.read u :=
  let ⟨sys, h, _, hc⟩ := upvalue_opened_reachable
  ⟨sys, h, by rw [hc]; rfl, reads_of_closing_reachable h 0⟩

/-- In every reachable state, a write through a cell changes the value of no other cell, and a
cell open when written then holds the value written. -/
theorem reads_of_setUpvalue_reachable (h : System.Reaches host window sys) {t : ThreadId}
    {u : UpValueId} {v : Value} {threads : ThreadId → ThreadState} {cells : Cells}
    (hs : LuaRegisters.setUpvalue t sys.arena.threads sys.arena.cells u v = some (threads, cells)) :
    (∀ w, w ≠ u → (⟨threads, cells⟩ : Arena).read w = sys.arena.read w) ∧
    ∀ t' i, sys.arena.cells.state u = .open t' i → (⟨threads, cells⟩ : Arena).read u = some v := by
  have hcells := LuaRegisters.cells_eq_of_setUpvalue hs
  subst hcells
  rcases hu : sys.arena.cells.state u with ⟨t', i⟩ | w
  · obtain ⟨hi, rfl⟩ := LuaRegisters.threads_of_setUpvalue_open hs hu
    refine ⟨fun w hw => ?_, fun _ _ _ => by simp [Arena.read, hu, hi]⟩
    rcases hw' : sys.arena.cells.state w with ⟨t'', j⟩ | x
    · by_cases ht : t'' = t'
      · subst ht
        -- no other cell is open at the written slot
        have hj : j ≠ i := fun hj => hw (h.openCell_unique (hj ▸ hw') hu)
        simp [Arena.read, hw', List.getElem?_set, hj.symm]
      · simp [Arena.read, hw', ht]
    · simp [Arena.read, hw']
  · rw [LuaRegisters.threads_of_setUpvalue_closed hs hu]
    exact ⟨fun _ _ => rfl, fun _ _ hu' => by cases hu'⟩

/-- Thread `1` writing `5` through cell `0`, open at slot `1` of thread `0`: the cell now holds
`5`, and every other cell what it held. -/
theorem setUpvalue_from_other_thread :
    ∃ (sys : System) (threads : ThreadId → ThreadState) (cells : Cells),
      System.Reaches Host.functionsOnly false sys ∧ sys.arena.cells.state 0 = .open 0 1 ∧
      LuaRegisters.setUpvalue 1 sys.arena.threads sys.arena.cells 0 (.integer 5) =
        some (threads, cells) ∧
      (∀ w, w ≠ 0 → (⟨threads, cells⟩ : Arena).read w = sys.arena.read w) ∧
      ∀ t' i, sys.arena.cells.state 0 = .open t' i →
        (⟨threads, cells⟩ : Arena).read 0 = some (.integer 5) := by
  have h : System.Reaches Host.functionsOnly false _ := System.Reachable.reaches
    (.round 0 ⟨[], .ok .return, [], .ok .pending, [.openUpvalue 0]⟩
      (.start 1 1 (.closure ⟨2, ⟨0, 2⟩⟩) [] (.start 0 0 (.closure ⟨1, ⟨0, 2⟩⟩) [] .init rfl rfl)
        rfl rfl) (fun h => by cases h) rfl)
  exact ⟨_, _, _, h, rfl, rfl, @reads_of_setUpvalue_reachable _ _ _ h 1 0 (.integer 5) _ _ rfl⟩

end Reachable

end Piccolo
