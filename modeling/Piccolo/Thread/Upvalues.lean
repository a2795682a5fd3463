import Mathlib.Data.List.Sort
import Piccolo.Thread.LuaFrame

/-!
# Opening and closing upvalues

A thread keeps the cells of its stack slots that closures captured in `open_upvalues`, ordered by
the slot each cell aliases. `open_upvalue` finds a register's cell by binary search and inserts a
new one where the search ends; `close_upvalues` finds the first cell at or above a slot by the
same search, closes every cell from there on over the slot's current value, and truncates the
list.

## Main definitions

- `OpenSorted` — the order both searches rely on: every cell of the list open, at strictly
  increasing indices

## Main statements

- `closeStart_spec` — the search of `close_upvalues` stops at the first cell at or above `bottom`
- `closeEach_eq` — the loop of `close_upvalues` closes each listed cell over its slot
- `openUpvalue_existing`, `openUpvalue_new` — what `open_upvalue` returns, and the list it leaves
-/

namespace Piccolo

/-- `ups` is a list of open cells whose `open_upvalue_ind` is `ind`, strictly increasing. -/
structure OpenSorted (cells : Cells) (ind : UpValueId → Nat) (ups : List UpValueId) : Prop where
  ind_eq : ∀ u ∈ ups, openUpvalueInd cells u = some (ind u)
  sorted : (ups.map ind).Sorted (· < ·)

variable {cells : Cells} {ind : UpValueId → Nat} {ups : List UpValueId}

namespace OpenSorted

theorem pairwise (h : OpenSorted cells ind ups) : ups.Pairwise fun u v => ind u < ind v :=
  List.pairwise_map.1 h.sorted

/-- Strictly increasing indices make the cells distinct. -/
theorem nodup (h : OpenSorted cells ind ups) : ups.Nodup :=
  h.pairwise.imp fun hlt he => by subst he; exact lt_irrefl _ hlt

/-- Listed cells open at the same slot are the same cell. -/
theorem ind_inj (h : OpenSorted cells ind ups) {u w : UpValueId} (hu : u ∈ ups) (hw : w ∈ ups)
    (he : ind u = ind w) : u = w :=
  List.inj_on_of_nodup_map h.sorted.nodup hu hw he

/-- Both searches compare a cell's index with the target, and never panic on this list. -/
theorem compare_eq (h : OpenSorted cells ind ups) (t : Nat) :
    ∀ u ∈ ups, (openUpvalueInd cells u).map (compare · t) = some (compare (ind u) t) :=
  fun u hu => by rw [h.ind_eq u hu]; rfl

/-- The search of `open_upvalue` and `close_upvalues` on this list. -/
theorem search (h : OpenSorted cells ind ups) (t : Nat) :
    ∃ r, Vec.binarySearchBy ups (fun u => (openUpvalueInd cells u).map (compare · t)) = some r ∧
      Vec.SearchResult ups ind t r :=
  Vec.searchResult_binarySearchBy h.pairwise (h.compare_eq t)

end OpenSorted

/-- Cells open on thread `self` at strictly increasing indices are `OpenSorted`. -/
theorem OpenSorted.of_open {self : ThreadId}
    (hown : ∀ u ∈ ups, cells.state u = .open self (ind u)) (hsorted : (ups.map ind).Sorted (· < ·)) :
    OpenSorted cells ind ups :=
  ⟨fun u hu => by simp only [openUpvalueInd, hown u hu], hsorted⟩

-- ════════════════════════════════════════════════════════════════════════
-- Closing
-- ════════════════════════════════════════════════════════════════════════

/-- The search of `close_upvalues` stops at the first cell at or above `bottom`: the cells before
it lie below `bottom` and the cells from it on at or above. -/
theorem closeStart_spec (h : OpenSorted cells ind ups) (bottom : Nat) :
    ∃ k, closeStart cells ups bottom = some k ∧ k ≤ ups.length ∧
      (∀ u ∈ ups.take k, ind u < bottom) ∧ ∀ u ∈ ups.drop k, ¬ ind u < bottom := by
  obtain ⟨r, hr, hres⟩ := h.search bottom
  obtain ⟨k, hk⟩ : ∃ k, r = .ok k ∨ r = .error k := by cases r <;> simp
  obtain ⟨hle, hsplit⟩ := hres.lowerBound h.pairwise hk
  refine ⟨k, ?_, hle, Vec.forall_take_drop hsplit⟩
  rcases hk with rfl | rfl <;> simp only [closeStart, hr, Option.map_some']

/-- The loop of `close_upvalues` over distinct cells open on `self`, each over a slot `read` can
read: it closes exactly those cells, over the values read. -/
theorem closeEach_eq {self : ThreadId} {read : Nat → Option Value} {val : UpValueId → Value} :
    ∀ {us : List UpValueId} {cells : Cells}, us.Nodup →
      (∀ u ∈ us, ∃ i, cells.state u = .open self i ∧ read i = some (val u)) →
      closeEach self read us cells =
        some { cells with state := fun u => if u ∈ us then .closed (val u) else cells.state u }
  | [], cells, _, _ => by simp [closeEach]
  | u :: us, cells, hnd, hopen => by
    obtain ⟨hu, hnd⟩ := List.nodup_cons.1 hnd
    obtain ⟨i, hi, hr⟩ := hopen u (List.mem_cons_self _ _)
    have hrest : ∀ w ∈ us, ∃ i, (cells.set u (.closed (val u))).state w = .open self i ∧
        read i = some (val w) := fun w hw => by
      rw [Cells.set_state_ne _ _ (ne_of_mem_of_not_mem hw hu)]
      exact hopen w (List.mem_cons_of_mem _ hw)
    simp only [closeEach, hi, if_true, hr, Option.bind_eq_bind, Option.some_bind,
      closeEach_eq hnd hrest]
    congr 2
    funext w
    by_cases hw : w = u
    · subst hw; simp [hu]
    · simp [hw, Cells.set_state_ne _ _ hw]

/-- The loop of `close_upvalues` over distinct cells panics on a listed cell open on another
thread, whatever it closed before. -/
theorem closeEach_foreign {self t : ThreadId} {read : Nat → Option Value} {u : UpValueId}
    {i : Nat} (ht : t ≠ self) :
    ∀ {us : List UpValueId} {cells : Cells}, us.Nodup → u ∈ us → cells.state u = .open t i →
      closeEach self read us cells = none
  | [], _, _, hu, _ => absurd hu (List.not_mem_nil _)
  | w :: us, cells, hnd, hu, hs => by
    obtain ⟨hw, hnd⟩ := List.nodup_cons.1 hnd
    rcases List.mem_cons.1 hu with rfl | hu
    · simp [closeEach, hs, ht]
    have hwu : u ≠ w := ne_of_mem_of_not_mem hu hw
    unfold closeEach
    split
    · split_ifs
      · exact Option.bind_eq_none.2 fun v _ =>
          closeEach_foreign ht hnd hu (by rw [Cells.set_state_ne _ _ hwu, hs])
      · rfl
    · rfl

/-- A listed cell at or above `bottom` lies in the part of the list the search of
`close_upvalues` leaves to close. -/
theorem mem_drop_of_le {ups : List UpValueId} {k bottom : Nat} {u : UpValueId}
    (htake : ∀ w ∈ ups.take k, ind w < bottom) (hu : u ∈ ups) (hb : bottom ≤ ind u) :
    u ∈ ups.drop k := by
  rw [← List.take_append_drop k ups, List.mem_append] at hu
  exact hu.resolve_left fun ht => absurd (htake u ht) (by omega)

/-- `ThreadState::close_upvalues` on the cells of this thread, at strictly increasing indices inside
the stack: the cells from `bottom` up are closed over their slots, every other cell is left as
it was, and the list keeps the prefix below `bottom`. -/
theorem ThreadState.closeUpvalues_spec {self : ThreadId} {s : ThreadState}
    (hown : ∀ u ∈ s.openUpvalues, cells.state u = .open self (ind u))
    (hsorted : (s.openUpvalues.map ind).Sorted (· < ·))
    (hlt : ∀ u ∈ s.openUpvalues, ind u < s.stack.length) (bottom : Nat) :
    ∃ cells', s.closeUpvalues self cells bottom =
        some ({ s with openUpvalues := s.openUpvalues.takeWhile fun u => ind u < bottom }, cells') ∧
      (∀ u ∈ s.openUpvalues, bottom ≤ ind u →
        ∃ v, s.stack[ind u]? = some v ∧ cells'.state u = .closed v) ∧
      ∀ u, (u ∈ s.openUpvalues → ind u < bottom) → cells'.state u = cells.state u := by
  have h := OpenSorted.of_open hown hsorted
  obtain ⟨k, hk, -, htake, hdrop⟩ := closeStart_spec h bottom
  obtain ⟨cells', hclose, hstate⟩ : ∃ cells',
      closeEach self (Vec.get s.stack) (s.openUpvalues.drop k) cells = some cells' ∧
        ∀ u, cells'.state u = if u ∈ s.openUpvalues.drop k
          then .closed (s.stack.getD (ind u) .nil) else cells.state u :=
    ⟨_, closeEach_eq (h.nodup.sublist (List.drop_sublist _ _)) (fun u hu =>
      ⟨ind u, hown u (List.mem_of_mem_drop hu), by
        simp [Vec.get, List.getD_eq_getElem?_getD, hlt u (List.mem_of_mem_drop hu)]⟩), fun _ => rfl⟩
  have hmem : ∀ u ∈ s.openUpvalues, u ∈ s.openUpvalues.drop k ↔ bottom ≤ ind u := fun u hu =>
    ⟨fun hd => Nat.le_of_not_lt (hdrop u hd), mem_drop_of_le htake hu⟩
  have htw : s.openUpvalues.takeWhile (fun u => ind u < bottom) = s.openUpvalues.take k :=
    Vec.takeWhile_eq_take (fun u hu => by simpa using htake u hu)
      (fun u hu => by simpa using hdrop u hu)
  refine ⟨cells', ?_, fun u hu hb => ?_, fun u hu => ?_⟩
  · simp only [ThreadState.closeUpvalues, Option.bind_eq_bind, hk, Option.some_bind, hclose, htw]
  · simp [hstate, (hmem u hu).2 hb, hlt u hu]
  · have : u ∉ s.openUpvalues.drop k := fun hd =>
      absurd (hu (List.mem_of_mem_drop hd)) (hdrop u hd)
    simp [hstate, this]

/-- A listed cell at or above `bottom` that is open on another thread makes
`ThreadState::close_upvalues` panic on its assert, on every list the search can read. -/
theorem ThreadState.closeUpvalues_foreign {self t : ThreadId} {s : ThreadState} {bottom : Nat}
    (h : OpenSorted cells ind s.openUpvalues) {u : UpValueId} (hu : u ∈ s.openUpvalues)
    (hb : bottom ≤ ind u) (ht : t ≠ self) {i : Nat} (hs : cells.state u = .open t i) :
    s.closeUpvalues self cells bottom = none := by
  obtain ⟨k, hk, -, htake, -⟩ := closeStart_spec h bottom
  simp only [ThreadState.closeUpvalues, Option.bind_eq_bind, hk, Option.some_bind,
    closeEach_foreign ht (h.nodup.sublist (List.drop_sublist _ _)) (mem_drop_of_le htake hu hb) hs,
    Option.none_bind]

/-- Opening upvalues reads the frames and the stack only through `registers`, which it keeps. -/
@[simp] theorem LuaRegisters.registers_setOpenUpvalues (s : ThreadState) (ups : List UpValueId) :
    LuaRegisters.registers { s with openUpvalues := ups } = LuaRegisters.registers s := rfl

section Opening

variable {self : ThreadId} {s : ThreadState} {bottom base : Nat}

/-- At a slot a listed cell is open at, `open_upvalue` returns that cell and changes nothing. -/
theorem openUpvalue_existing (hr : LuaRegisters.registers s = some (bottom, base))
    (h : OpenSorted cells ind s.openUpvalues) {reg : Nat} {u : UpValueId}
    (hu : u ∈ s.openUpvalues) (hind : ind u = base + reg) :
    LuaRegisters.openUpvalue self s cells reg = some (u, s, cells) := by
  obtain ⟨r, hsr, hres⟩ := h.search (base + reg)
  obtain ⟨i, rfl, hi⟩ := hres.eq_ok h.pairwise hu hind
  simp only [LuaRegisters.openUpvalue, Option.bind_eq_bind, hr, Option.some_bind, hsr, hi]

/-- At a slot no listed cell is open at, `open_upvalue` allocates a cell open there on this thread
and inserts it where the indices stay strictly increasing. -/
theorem openUpvalue_new (hr : LuaRegisters.registers s = some (bottom, base))
    (h : OpenSorted cells ind s.openUpvalues) (hfresh : ∀ u ∈ s.openUpvalues, u < cells.next)
    {reg : Nat} (hnone : ∀ u ∈ s.openUpvalues, ind u ≠ base + reg) :
    ∃ i ≤ s.openUpvalues.length,
      LuaRegisters.openUpvalue self s cells reg = some (cells.next,
        { s with openUpvalues := s.openUpvalues.take i ++ cells.next :: s.openUpvalues.drop i },
        (cells.new (.open self (base + reg))).2) ∧
      OpenSorted (cells.new (.open self (base + reg))).2 (Function.update ind cells.next (base + reg))
        (s.openUpvalues.take i ++ cells.next :: s.openUpvalues.drop i) := by
  obtain ⟨r, hsr, hres⟩ := h.search (base + reg)
  obtain ⟨i, rfl⟩ : ∃ i, r = .error i := by
    cases r with
    | ok i => obtain ⟨hi, he⟩ := hres; exact absurd he (hnone _ (List.getElem_mem hi))
    | error i => exact ⟨i, rfl⟩
  obtain ⟨hle, hsplit⟩ := hres.lowerBound h.pairwise (.inr rfl)
  obtain ⟨htake, hdrop⟩ := @Vec.forall_take_drop _ _ (fun u => ind u < base + reg) _ hsplit
  have hne : ∀ w ∈ s.openUpvalues, w ≠ cells.next := fun w hw => Nat.ne_of_lt (hfresh w hw)
  refine ⟨i, hle, ?_, ⟨fun w hw => ?_, ?_⟩⟩
  · simp only [LuaRegisters.openUpvalue, Option.bind_eq_bind, hr, Option.some_bind, hsr,
      Vec.insert, if_pos hle, Cells.new]
  · rcases List.mem_append.1 hw with hw | hw | ⟨_, hw⟩
    · have hw := List.mem_of_mem_take hw
      simp [openUpvalueInd, Cells.new, hne w hw, ← h.ind_eq w hw]
    · simp [openUpvalueInd, Cells.new]
    · have hw := List.mem_of_mem_drop hw
      simp [openUpvalueInd, Cells.new, hne w hw, ← h.ind_eq w hw]
  · have hmap : ∀ l : List UpValueId, l ⊆ s.openUpvalues →
        l.map (Function.update ind cells.next (base + reg)) = l.map ind := fun l hl =>
      List.map_congr_left fun w hw => Function.update_noteq (hne w (hl hw)) _ _
    have horig : ((s.openUpvalues.take i).map ind ++ (s.openUpvalues.drop i).map ind).Pairwise
        (· < ·) := by
      rw [← List.map_append, List.take_append_drop]; exact h.sorted
    rw [List.pairwise_append] at horig
    simp only [List.map_append, List.map_cons, Function.update_same,
      hmap _ (List.take_subset _ _), hmap _ (List.drop_subset _ _)]
    refine List.pairwise_append.2 ⟨horig.1, List.pairwise_cons.2 ⟨fun b hb => ?_, horig.2.1⟩,
      fun a ha b hb => ?_⟩
    · obtain ⟨w, hw, rfl⟩ := List.mem_map.1 hb
      have := hdrop w hw
      have := hnone w (List.mem_of_mem_drop hw)
      omega
    · obtain ⟨w, hw, rfl⟩ := List.mem_map.1 ha
      rcases List.mem_cons.1 hb with rfl | hb
      · exact htake w hw
      · exact horig.2.2 _ (List.mem_map_of_mem _ hw) b hb

/-- One call of `open_upvalue` keeps the list sorted and its cells allocated, keeps the
registers, and leaves the returned cell listed at the register's slot. -/
theorem openUpvalue_step (hr : LuaRegisters.registers s = some (bottom, base))
    (h : OpenSorted cells ind s.openUpvalues) (hfresh : ∀ u ∈ s.openUpvalues, u < cells.next)
    {reg : Nat} {u : UpValueId} {s' : ThreadState} {cells' : Cells}
    (ho : LuaRegisters.openUpvalue self s cells reg = some (u, s', cells')) :
    ∃ ind', OpenSorted cells' ind' s'.openUpvalues ∧ (∀ w ∈ s'.openUpvalues, w < cells'.next) ∧
      u ∈ s'.openUpvalues ∧ ind' u = base + reg ∧
      LuaRegisters.registers s' = some (bottom, base) := by
  by_cases hex : ∃ w ∈ s.openUpvalues, ind w = base + reg
  · obtain ⟨w, hw, hind⟩ := hex
    rw [openUpvalue_existing hr h hw hind] at ho
    cases ho
    exact ⟨ind, h, hfresh, hw, hind, hr⟩
  · push_neg at hex
    obtain ⟨i, -, hnew, hs⟩ := openUpvalue_new hr h hfresh hex
    rw [hnew] at ho
    cases ho
    refine ⟨_, hs, fun w hw => ?_, by simp, Function.update_same _ _ _, hr⟩
    rcases List.mem_append.1 hw with hw | hw | ⟨_, hw⟩
    · exact Nat.lt_succ_of_lt (hfresh w (List.mem_of_mem_take hw))
    · exact Nat.lt_succ_self _
    · exact Nat.lt_succ_of_lt (hfresh w (List.mem_of_mem_drop hw))

/-- While a cell `u` is listed, `open_upvalue` returns it exactly when it names the slot `u` is
open at. -/
theorem openUpvalue_listed (hr : LuaRegisters.registers s = some (bottom, base))
    (h : OpenSorted cells ind s.openUpvalues) (hfresh : ∀ u ∈ s.openUpvalues, u < cells.next)
    {u : UpValueId} (hu : u ∈ s.openUpvalues) {reg : Nat} {u' : UpValueId} {s' : ThreadState}
    {cells' : Cells} (ho : LuaRegisters.openUpvalue self s cells reg = some (u', s', cells')) :
    u = u' ↔ ind u = base + reg := by
  by_cases hex : ∃ w ∈ s.openUpvalues, ind w = base + reg
  · obtain ⟨w, hw, hind⟩ := hex
    rw [openUpvalue_existing hr h hw hind] at ho
    cases ho
    exact ⟨fun he => he ▸ hind, fun he => h.ind_inj hu hw (he.trans hind.symm)⟩
  · push_neg at hex
    obtain ⟨i, -, hnew, -⟩ := openUpvalue_new hr h hfresh hex
    rw [hnew] at ho
    cases ho
    exact ⟨fun he => absurd (he ▸ hfresh u hu) (lt_irrefl _), fun he => absurd he (hex u hu)⟩

/-- Two calls of `open_upvalue` in a row return the same cell exactly when they name the same
slot. -/
theorem openUpvalue_twice (hr : LuaRegisters.registers s = some (bottom, base))
    (h : OpenSorted cells ind s.openUpvalues) (hfresh : ∀ u ∈ s.openUpvalues, u < cells.next)
    {reg₁ reg₂ : Nat} {u₁ u₂ : UpValueId} {s₁ s₂ : ThreadState} {cells₁ cells₂ : Cells}
    (h₁ : LuaRegisters.openUpvalue self s cells reg₁ = some (u₁, s₁, cells₁))
    (h₂ : LuaRegisters.openUpvalue self s₁ cells₁ reg₂ = some (u₂, s₂, cells₂)) :
    u₁ = u₂ ↔ base + reg₁ = base + reg₂ := by
  obtain ⟨ind₁, hs₁, hf₁, hu₁, hi₁, hr₁⟩ := openUpvalue_step hr h hfresh h₁
  rw [openUpvalue_listed hr₁ hs₁ hf₁ hu₁ h₂, hi₁]

/-- Opening an upvalue shares cells: the cell open at the register's slot is returned, or else
exactly one new cell is inserted in order; two calls in a row return the same cell exactly when
they name the same slot, and so does a later call, after any operations that leave the first
call's cell listed at its slot. -/
theorem openUpvalue_shares (hr : LuaRegisters.registers s = some (bottom, base))
    (h : OpenSorted cells ind s.openUpvalues) (hfresh : ∀ u ∈ s.openUpvalues, u < cells.next) :
    (∀ reg, ∀ u ∈ s.openUpvalues, ind u = base + reg →
      LuaRegisters.openUpvalue self s cells reg = some (u, s, cells)) ∧
    (∀ reg, (∀ u ∈ s.openUpvalues, ind u ≠ base + reg) → ∃ i ≤ s.openUpvalues.length,
      LuaRegisters.openUpvalue self s cells reg = some (cells.next,
        { s with openUpvalues := s.openUpvalues.take i ++ cells.next :: s.openUpvalues.drop i },
        (cells.new (.open self (base + reg))).2) ∧
      OpenSorted (cells.new (.open self (base + reg))).2 (Function.update ind cells.next (base + reg))
        (s.openUpvalues.take i ++ cells.next :: s.openUpvalues.drop i)) ∧
    (∀ reg₁ reg₂ u₁ u₂ s₁ s₂ cells₁ cells₂,
      LuaRegisters.openUpvalue self s cells reg₁ = some (u₁, s₁, cells₁) →
      LuaRegisters.openUpvalue self s₁ cells₁ reg₂ = some (u₂, s₂, cells₂) →
      (u₁ = u₂ ↔ base + reg₁ = base + reg₂)) ∧
    ∀ reg₁ u₁ s₁ cells₁, LuaRegisters.openUpvalue self s cells reg₁ = some (u₁, s₁, cells₁) →
      ∀ (s' : ThreadState) (cells' : Cells) (ind' : UpValueId → Nat) (bottom' base' : Nat),
        LuaRegisters.registers s' = some (bottom', base') → OpenSorted cells' ind' s'.openUpvalues →
        (∀ w ∈ s'.openUpvalues, w < cells'.next) → u₁ ∈ s'.openUpvalues →
        ind' u₁ = base + reg₁ →
        ∀ reg₂ u₂ s₂ cells₂, LuaRegisters.openUpvalue self s' cells' reg₂ = some (u₂, s₂, cells₂) →
          (u₁ = u₂ ↔ base + reg₁ = base' + reg₂) :=
  ⟨fun _ _ hu hind => openUpvalue_existing hr h hu hind,
    fun _ hnone => openUpvalue_new hr h hfresh hnone,
    fun _ _ _ _ _ _ _ _ h₁ h₂ => openUpvalue_twice hr h hfresh h₁ h₂,
    fun _ _ _ _ _ _ _ _ _ _ hr' h' hf' hu hi _ _ _ _ h₂ => by
      rw [openUpvalue_listed hr' h' hf' hu h₂, hi]⟩

end Opening

/-- A frame with base `1` whose slot `1` has an open cell: opening register `0` returns that cell
and changes nothing. -/
theorem openUpvalue_shares_slot_one :
    LuaRegisters.openUpvalue 0 ⟨[.lua ⟨0, 1, false, 0, 3, none⟩], [.nil, .nil, .nil, .nil], [0]⟩
        ⟨fun _ => .open 0 1, 1⟩ 0 =
      some (0, ⟨[.lua ⟨0, 1, false, 0, 3, none⟩], [.nil, .nil, .nil, .nil], [0]⟩,
        ⟨fun _ => .open 0 1, 1⟩) :=
  (@openUpvalue_shares ⟨fun _ => .open 0 1, 1⟩ (fun _ => 1) 0
    ⟨[.lua ⟨0, 1, false, 0, 3, none⟩], [.nil, .nil, .nil, .nil], [0]⟩ 0 1 rfl
    ⟨fun _ _ => rfl, by decide⟩ (by decide)).1 0 0 (List.mem_singleton_self _) rfl

end Piccolo
