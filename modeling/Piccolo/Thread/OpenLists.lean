import Piccolo.Thread.ShapeLua
import Piccolo.Thread.Upvalues

/-!
# Well-formed open upvalue lists

`close_upvalues` searches a thread's open upvalues by stack index and closes the cells it finds,
and `open_upvalue` inserts a new cell in index order. Both rely on the list being well formed:
every cell open on this thread, at strictly increasing indices, and allocated. This file states
that as `OpenList` and shows how each operation of a thread changes the list and the cells.

## Main definitions

- `Cells.openIndex` — the stack index a cell is open at
- `OpenList` — a well-formed open list of one thread
- `Closes` — what closing does: the list keeps a prefix, and only the cells after it change

## Main results

- `Closes.openList`, `Closes.openList_other` — closing keeps every thread's list well formed
- `OpenList.openUpvalue`, `OpenList.openUpvalue_other` — so does opening
- `LuaRegisters.cells_eq_of_setUpvalue` — writing through a cell changes no cell
- the `openUpvalues_of_*` and `closes_of_*` lemmas — every other operation keeps the list, or
  closes

## Design notes

A cell is open on one thread at one index, so two threads never list the same cell
(`OpenList.not_mem`): closing one thread's cells leaves every other list alone. A new cell is the
allocation pointer, which no list holds.
-/

namespace Piccolo

/-- The stack index a cell is open at, `0` for a closed cell. -/
def Cells.openIndex (cells : Cells) (u : UpValueId) : Nat :=
  (openUpvalueInd cells u).getD 0

/-- A well-formed list of the open upvalues of thread `t`: every cell is open on `t` and has been
allocated, and the stack indices strictly increase. -/
structure OpenList (cells : Cells) (t : ThreadId) (ups : List UpValueId) : Prop where
  onThread : ∀ u ∈ ups, cells.state u = .open t (cells.openIndex u)
  sorted : (ups.map cells.openIndex).Sorted (· < ·)
  allocated : ∀ u ∈ ups, u < cells.next

variable {cells cells' : Cells} {t t' self : ThreadId} {ups ups' : List UpValueId}

namespace OpenList

theorem nil : OpenList cells t [] := ⟨by simp, by simp, by simp⟩

/-- The list as `close_upvalues` and `open_upvalue` take it. -/
theorem openSorted (h : OpenList cells t ups) : OpenSorted cells cells.openIndex ups :=
  OpenSorted.of_open h.onThread h.sorted

/-- A list stays well formed while its cells keep their states and no allocation is undone. -/
theorem congr (h : OpenList cells t ups) (hs : ∀ u ∈ ups, cells'.state u = cells.state u)
    (hn : cells.next ≤ cells'.next) : OpenList cells' t ups := by
  have hi : ∀ u ∈ ups, cells'.openIndex u = cells.openIndex u := fun u hu => by
    simp only [Cells.openIndex, openUpvalueInd, hs u hu]
  refine ⟨fun u hu => by rw [hs u hu, hi u hu, h.onThread u hu], ?_,
    fun u hu => (h.allocated u hu).trans_le hn⟩
  rw [List.map_congr_left hi]
  exact h.sorted

theorem sublist (h : OpenList cells t ups) (hs : List.Sublist ups' ups) : OpenList cells t ups' :=
  ⟨fun u hu => h.onThread u (hs.subset hu), h.sorted.sublist (hs.map _),
    fun u hu => h.allocated u (hs.subset hu)⟩

/-- A cell is listed by one thread at most. -/
theorem not_mem (h : OpenList cells t ups) (h' : OpenList cells t' ups') (ht : t ≠ t')
    {u : UpValueId} (hu : u ∈ ups) : u ∉ ups' := fun hu' => by
  have := (h.onThread u hu).symm.trans (h'.onThread u hu')
  exact ht (UpValueState.open.inj this).1

end OpenList

-- ════════════════════════════════════════════════════════════════════════
-- Closing
-- ════════════════════════════════════════════════════════════════════════

/-- The closing loop changes the cells it is given only, and allocates none. -/
theorem closeEach_frame {read : Nat → Option Value} :
    ∀ {us : List UpValueId} {cells cells' : Cells}, closeEach self read us cells = some cells' →
      cells'.next = cells.next ∧ ∀ u ∉ us, cells'.state u = cells.state u
  | [], _, _, h => by cases h; exact ⟨rfl, fun _ _ => rfl⟩
  | u :: us, cells, cells', h => by
    unfold closeEach at h
    split at h
    · obtain ⟨-, h⟩ := ite_eq_iff.1 h |>.resolve_right (fun h => by cases h.2)
      obtain ⟨v, -, h⟩ := Option.bind_eq_some.1 h
      obtain ⟨hn, hs⟩ := closeEach_frame h
      refine ⟨hn, fun w hw => ?_⟩
      rw [hs w fun h => hw (List.mem_cons_of_mem _ h),
        Cells.set_state_ne _ _ fun h => hw (by rw [h]; exact List.mem_cons_self _ _)]
    · cases h

/-- The closing loop closes every cell it is given, each open on `self` before, over the value
`read` gives for its slot. -/
theorem closeEach_closed {read : Nat → Option Value} :
    ∀ {us : List UpValueId} {cells cells' : Cells}, closeEach self read us cells = some cells' →
      ∀ u ∈ us, ∃ i v, cells.state u = .open self i ∧ read i = some v ∧
        cells'.state u = .closed v
  | [], _, _, _ => fun _ h => (List.not_mem_nil _ h).elim
  | u :: us, cells, cells', h => by
    unfold closeEach at h
    split at h
    · rename_i t ind hu
      obtain ⟨ht, h⟩ := ite_eq_iff.1 h |>.resolve_right (fun h => by cases h.2)
      rw [ht] at hu
      obtain ⟨v, hv, h⟩ := Option.bind_eq_some.1 h
      intro w hw
      by_cases hwu : w = u
      · subst hwu
        refine ⟨ind, v, hu, hv, ?_⟩
        by_cases hmem : w ∈ us
        · obtain ⟨_, _, hopen, -⟩ := closeEach_closed h w hmem
          rw [Cells.set_state_self] at hopen
          cases hopen
        · rw [(closeEach_frame h).2 w hmem, Cells.set_state_self]
      · obtain ⟨i, v', hopen, hr, hc⟩ := closeEach_closed h w ((List.mem_cons.1 hw).resolve_left hwu)
        rw [Cells.set_state_ne _ _ hwu] at hopen
        exact ⟨i, v', hopen, hr, hc⟩
    · cases h

/-- How closing changes a thread: its open list keeps a prefix, each cell after it goes from open
to closed over the value in its slot, and no other cell changes. -/
def Closes (s s' : ThreadState) (cells cells' : Cells) : Prop :=
  ∃ k, s'.openUpvalues = s.openUpvalues.take k ∧ cells'.next = cells.next ∧
    (∀ u ∉ s.openUpvalues.drop k, cells'.state u = cells.state u) ∧
    ∀ u ∈ s.openUpvalues.drop k, ∃ t i v, cells.state u = .open t i ∧ s.stack[i]? = some v ∧
      cells'.state u = .closed v

namespace Closes

variable {s s₁ s' : ThreadState}

theorem of_openUpvalues (h : s'.openUpvalues = s.openUpvalues) : Closes s s' cells cells :=
  ⟨s.openUpvalues.length, by rw [List.take_length, h], rfl, fun _ _ => rfl,
    fun _ hu => by simp at hu⟩

theorem congr_right (h : Closes s s₁ cells cells') (h' : s'.openUpvalues = s₁.openUpvalues) :
    Closes s s' cells cells' := by
  obtain ⟨k, hk, hn, hs, hc⟩ := h
  exact ⟨k, h'.trans hk, hn, hs, hc⟩

/-- The closing thread keeps a well-formed list. -/
theorem openList (hc : Closes s s' cells cells') (h : OpenList cells t s.openUpvalues) :
    OpenList cells' t s'.openUpvalues := by
  obtain ⟨k, hk, hn, hs, -⟩ := hc
  rw [hk]
  have hnd : (s.openUpvalues.take k ++ s.openUpvalues.drop k).Nodup := by
    rw [List.take_append_drop]; exact h.openSorted.nodup
  exact (h.sublist (List.take_sublist _ _)).congr
    (fun u hu => hs u fun hd => List.disjoint_of_nodup_append hnd hu hd) hn.ge

/-- Every other thread's list stays well formed. -/
theorem openList_other (hc : Closes s s' cells cells') (h : OpenList cells self s.openUpvalues)
    (h' : OpenList cells t ups) (ht : self ≠ t) : OpenList cells' t ups := by
  obtain ⟨k, -, hn, hs, -⟩ := hc
  exact h'.congr (fun u hu => hs u fun hd =>
    h.not_mem h' ht (List.mem_of_mem_drop hd) hu) hn.ge

end Closes

theorem ThreadState.closes_of_closeUpvalues {s s' : ThreadState} {bottom : Nat}
    (h : s.closeUpvalues self cells bottom = some (s', cells')) : Closes s s' cells cells' := by
  simp only [ThreadState.closeUpvalues, Option.bind_eq_bind] at h
  obtain ⟨k, -, h⟩ := Option.bind_eq_some.1 h
  obtain ⟨c, hc, ⟨⟩⟩ := Option.bind_eq_some.1 h
  refine ⟨k, rfl, (closeEach_frame hc).1, (closeEach_frame hc).2, fun u hu => ?_⟩
  obtain ⟨i, v, ho, hv, hcl⟩ := closeEach_closed hc u hu
  exact ⟨self, i, v, ho, hv, hcl⟩

/-- On a well-formed list, the cells closing keeps open are those below `bottom`. -/
theorem ThreadState.kept_of_closeUpvalues {s s' : ThreadState} {bottom : Nat}
    (ho : OpenList cells t s.openUpvalues)
    (h : s.closeUpvalues self cells bottom = some (s', cells')) :
    ∀ u ∈ s'.openUpvalues, cells.openIndex u < bottom := by
  obtain ⟨k, hk, -, htake, -⟩ := closeStart_spec ho.openSorted bottom
  simp only [ThreadState.closeUpvalues, Option.bind_eq_bind, hk, Option.some_bind] at h
  obtain ⟨_, -, ⟨⟩⟩ := Option.bind_eq_some.1 h
  exact htake

theorem LuaRegisters.closes_of_closeUpvalues {s s' : ThreadState} {r : Nat}
    (h : LuaRegisters.closeUpvalues self s cells r = some (s', cells')) :
    Closes s s' cells cells' := by
  rw [LuaRegisters.closeUpvalues_eq] at h
  obtain ⟨_, -, h⟩ := Option.bind_eq_some.1 h
  exact ThreadState.closes_of_closeUpvalues h

-- ════════════════════════════════════════════════════════════════════════
-- Opening
-- ════════════════════════════════════════════════════════════════════════

theorem Cells.state_eq_open {u : UpValueId} {i : Nat} (h : cells.state u = .open t i) :
    cells.state u = .open t (cells.openIndex u) := by
  simp [Cells.openIndex, openUpvalueInd, h]

namespace OpenList

variable {s s' : ThreadState} {reg : Nat} {u : UpValueId}

/-- `open_upvalue` keeps the list of the thread it runs on well formed. -/
theorem openUpvalue (h : OpenList cells self s.openUpvalues)
    (ho : LuaRegisters.openUpvalue self s cells reg = some (u, s', cells')) :
    OpenList cells' self s'.openUpvalues := by
  obtain ⟨⟨⟨bottom, base⟩, hr⟩, hcases⟩ := LuaRegisters.openUpvalue_cases ho
  obtain ⟨ind', hs', hf', -⟩ := openUpvalue_step hr h.openSorted h.allocated ho
  have hi : ∀ w ∈ s'.openUpvalues, cells'.openIndex w = ind' w := fun w hw => by
    simp [Cells.openIndex, hs'.ind_eq w hw]
  refine ⟨fun w hw => ?_, by rw [List.map_congr_left hi]; exact hs'.sorted, hf'⟩
  rcases hcases with ⟨rfl, rfl⟩ | ⟨i, ind, rfl, rfl⟩
  · exact h.onThread w hw
  · by_cases hn : w = cells.next
    · subst hn
      exact Cells.state_eq_open (show _ = UpValueState.open self ind by simp [Cells.new])
    · have hw : w ∈ s.openUpvalues := by
        rcases List.mem_append.1 hw with hw | hw
        · exact List.mem_of_mem_take hw
        · exact List.mem_of_mem_drop ((List.mem_cons.1 hw).resolve_left hn)
      exact Cells.state_eq_open (show (cells.new _).2.state w = _ by
        simp only [Cells.new, Function.update_noteq hn]; exact h.onThread w hw)

/-- `open_upvalue` on one thread keeps the list of every thread well formed: a new cell is one no
list holds. -/
theorem openUpvalue_other (h : OpenList cells t ups) {s s' : ThreadState}
    (ho : LuaRegisters.openUpvalue self s cells reg = some (u, s', cells')) :
    OpenList cells' t ups := by
  rcases (LuaRegisters.openUpvalue_cases ho).2 with ⟨-, rfl⟩ | ⟨i, ind, -, rfl⟩
  · exact h
  · exact h.congr (fun w hw => Function.update_noteq (Nat.ne_of_lt (h.allocated w hw)) _ _)
      (Nat.le_succ _)

end OpenList

-- ════════════════════════════════════════════════════════════════════════
-- Writing through a cell
-- ════════════════════════════════════════════════════════════════════════

/-- `set_upvalue` changes no cell: through an open cell it writes a stack slot, and on a closed
cell it stores the value the cell already holds. -/
theorem LuaRegisters.cells_eq_of_setUpvalue {threads threads' : ThreadId → ThreadState}
    {u : UpValueId} {v : Value}
    (h : LuaRegisters.setUpvalue self threads cells u v = some (threads', cells')) :
    cells' = cells := by
  unfold LuaRegisters.setUpvalue at h
  simp only [Option.bind_eq_bind, Option.bind_eq_some] at h
  obtain ⟨_, _, h⟩ := h
  split at h
  · split_ifs at h
    obtain ⟨_, -, ⟨⟩⟩ := Option.bind_eq_some.1 h
    rfl
  · rename_i w hu
    cases h
    rw [Cells.set, ← hu, Function.update_eq_self]

/-- `set_upvalue` through a cell open at slot `i` of thread `t` writes that slot and nothing else. -/
theorem LuaRegisters.threads_of_setUpvalue_open {threads threads' : ThreadId → ThreadState}
    {u : UpValueId} {v : Value} {i : Nat}
    (h : LuaRegisters.setUpvalue self threads cells u v = some (threads', cells'))
    (hu : cells.state u = .open t i) :
    i < (threads t).stack.length ∧
      threads' = Function.update threads t { threads t with stack := (threads t).stack.set i v } := by
  unfold LuaRegisters.setUpvalue at h
  simp only [Option.bind_eq_bind, Option.bind_eq_some, hu] at h
  obtain ⟨_, _, h⟩ := h
  split_ifs at h
  obtain ⟨_, hst, ⟨⟩⟩ := Option.bind_eq_some.1 h
  obtain ⟨hi, rfl⟩ := Vec.set_eq_some.1 hst
  exact ⟨hi, rfl⟩

/-- `set_upvalue` on a closed cell writes no stack. -/
theorem LuaRegisters.threads_of_setUpvalue_closed {threads threads' : ThreadId → ThreadState}
    {u : UpValueId} {v w : Value}
    (h : LuaRegisters.setUpvalue self threads cells u v = some (threads', cells'))
    (hu : cells.state u = .closed w) : threads' = threads := by
  unfold LuaRegisters.setUpvalue at h
  simp only [Option.bind_eq_bind, Option.bind_eq_some, hu] at h
  obtain ⟨_, _, ⟨⟩⟩ := h
  rfl

-- ════════════════════════════════════════════════════════════════════════
-- Operations that keep the list
-- ════════════════════════════════════════════════════════════════════════

section Keep

variable {s s' : ThreadState}

theorem ThreadState.openUpvalues_of_pushCall {bottom : Nat} {f : Function}
    (h : s.pushCall bottom f = some s') : s'.openUpvalues = s.openUpvalues :=
  (ThreadState.pushCall_cases h).1

theorem ThreadState.openUpvalues_of_returnTo {bottom : Nat} (h : s.returnTo bottom = some s') :
    s'.openUpvalues = s.openUpvalues :=
  (ThreadState.returnTo_cases h).1

theorem ThreadState.openUpvalues_of_takeResult {r : Except Error (List Value)}
    (h : s.takeResult = some (r, s')) : s'.openUpvalues = s.openUpvalues := by
  rcases ThreadState.takeResult_cases h with ⟨_, _, _, _, _, rfl⟩ | ⟨_, _, _, _, _, rfl⟩ <;> rfl

namespace Thread

/-- The checked operations of `Thread` act on the state `check_mode` passes on. -/
theorem eq_ok_of_checkMode {m : ThreadMode} {α : Type}
    {k : ThreadState → Option (Except BadThreadMode α)} {x : α}
    (h : (do
      match ← checkMode s m with
      | .error e => some (.error e)
      | .ok s => k s) = some (.ok x)) :
    k s = some (.ok x) := by
  simp only [Option.bind_eq_bind, Option.bind_eq_some] at h
  obtain ⟨r, hc, h⟩ := h
  rcases r with _ | s₁
  · cases h
  obtain ⟨-, rfl⟩ := checkMode_eq_ok.1 hc
  exact h

theorem openUpvalues_of_start {f : Function} {args : List Value}
    (h : start s f args = some (.ok s')) : s'.openUpvalues = s.openUpvalues := by
  have h := eq_ok_of_checkMode h
  split_ifs at h
  obtain ⟨_, hp, ⟨⟩⟩ := Option.map_eq_some'.1 h
  exact (ThreadState.openUpvalues_of_pushCall hp :)

theorem openUpvalues_of_startSuspended {f : Function} (h : startSuspended s f = some (.ok s')) :
    s'.openUpvalues = s.openUpvalues := by
  cases eq_ok_of_checkMode h
  rfl

theorem openUpvalues_of_takeResult {r : Except Error (List Value)}
    (h : takeResult s = some (.ok (r, s'))) : s'.openUpvalues = s.openUpvalues := by
  obtain ⟨_, ht, ⟨⟩⟩ := Option.map_eq_some'.1 (eq_ok_of_checkMode h)
  exact ThreadState.openUpvalues_of_takeResult ht

theorem openUpvalues_of_resume {args : List Value} (h : resume s args = some (.ok s')) :
    s'.openUpvalues = s.openUpvalues := by
  obtain ⟨_, hr, ⟨⟩⟩ := Option.map_eq_some'.1 (eq_ok_of_checkMode h)
  dsimp only [resumeChecked] at hr
  split at hr
  · split_ifs at hr
    exact (ThreadState.openUpvalues_of_pushCall hr :)
  · exact (ThreadState.openUpvalues_of_returnTo hr :)
  · cases hr

theorem openUpvalues_of_resumeErr {e : Error} (h : resumeErr s e = some (.ok s')) :
    s'.openUpvalues = s.openUpvalues := by
  have h := eq_ok_of_checkMode h
  split at h <;> cases h <;> rfl

/-- `Thread::reset` closes every open upvalue of the thread. -/
theorem closes_of_reset {self : ThreadId} (h : reset self s cells = some (s', cells')) :
    Closes s s' cells cells' ∧ s'.openUpvalues = [] := by
  simp only [reset, Option.bind_eq_bind, Option.bind_eq_some] at h
  obtain ⟨⟨s₁, c₁⟩, hc, h⟩ := h
  split_ifs at h with hn
  cases h
  exact ⟨(ThreadState.closes_of_closeUpvalues hc).congr_right rfl, hn⟩

end Thread

namespace LuaFrame

variable {host : Host} {e : Option VMError}

theorem openUpvalues_of_varargs {dest : Nat} {count : VarCount}
    (h : varargs s dest count = some (s', e)) : s'.openUpvalues = s.openUpvalues := by
  obtain ⟨_, _, -, hu, -⟩ := varargs_cases h
  exact hu

theorem openUpvalues_of_setTableList {tableBase : Nat} {count : VarCount}
    {w : Option (Nat × List (BitVec 64 × Value))}
    (h : setTableList host s tableBase count = some (s', w, e)) :
    s'.openUpvalues = s.openUpvalues := by
  obtain ⟨_, _, -, hu, -⟩ := setTableList_cases h
  exact hu

theorem openUpvalues_of_callFunction {func : Nat} {args returns : VarCount}
    (h : callFunction host s func args returns = some (s', e)) :
    s'.openUpvalues = s.openUpvalues := by
  obtain ⟨_, _, -, hu, -⟩ := callFunction_cases h
  exact hu

theorem openUpvalues_of_callFunctionKeep {func argCount : Nat} {returns : VarCount}
    (h : callFunctionKeep host s func argCount returns = some (s', e)) :
    s'.openUpvalues = s.openUpvalues := by
  obtain ⟨_, _, -, hu, -⟩ := callFunctionKeep_cases h
  exact hu

theorem openUpvalues_of_callMetaFunction {func : Function} {args : List Value}
    {retIndex : Option Nat} (h : callMetaFunction host s func args retIndex = some (s', e)) :
    s'.openUpvalues = s.openUpvalues := by
  obtain ⟨_, _, -, hu, -⟩ := callMetaFunction_cases h
  exact hu

/-- `tail_call_function` closes the upvalues of the frame it replaces. -/
theorem closes_of_tailCallFunction {self : ThreadId} {func : Nat} {args : VarCount}
    (h : tailCallFunction host self s cells func args = some (s', cells', e)) :
    Closes s s' cells cells' := by
  obtain ⟨_, _, -, ⟨rfl, rfl, -⟩ | ⟨_, hc, hu, -⟩⟩ := tailCallFunction_cases h
  · exact Closes.of_openUpvalues rfl
  · exact (ThreadState.closes_of_closeUpvalues hc).congr_right hu

/-- `return_upper` closes the upvalues of the frame it pops. -/
theorem closes_of_returnUpper {self : ThreadId} {start : Nat} {count : VarCount}
    (h : returnUpper self s cells start count = some (s', cells', e)) :
    Closes s s' cells cells' := by
  obtain ⟨_, _, -, ⟨rfl, rfl, -⟩ | ⟨-, _, _, hc, hr⟩⟩ := returnUpper_cases h
  · exact Closes.of_openUpvalues rfl
  · exact (ThreadState.closes_of_closeUpvalues hc).congr_right (returnValues_cases hr).1

end LuaFrame

end Keep

end Piccolo
