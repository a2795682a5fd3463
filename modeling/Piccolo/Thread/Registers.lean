import Piccolo.Thread.LuaFrame

/-!
# What `varargs` and `set_table_list` write

The two frame operations of `run_vm` that move a run of values: `varargs` copies the arguments a
variadic Lua frame captured below its base into its registers, and `set_table_list` stores a run
of registers into a table under consecutive integer keys.

## Main statements

- `varargs_constant`, `varargs_variadic` — the stack `varargs` leaves, for a constant and a
  variable count
- `setListLoop_spec` — the keys and values the loop of `set_table_list` writes, up to the first
  key that `checked_add` cannot reach
- `setTableList_spec` — the writes, the stored last key and the stack `set_table_list` leaves
- `setTableList_mismatch` — on a frame whose variability differs from the count it writes nothing

## Design notes

A frame's captured varargs are `stack[bottom + 1 .. base]`. Both copies of `varargs` read them
below `base` and write at or above it, so no copied slot is overwritten before it is read.
-/

namespace Piccolo

namespace LuaFrame

variable {s : ThreadState} {l : LuaFields} {rest : List Frame}

theorem topLua_of_frames (hf : s.frames = .lua l :: rest) : topLua s = some (l, rest) := by
  simp [topLua, hf]

-- ════════════════════════════════════════════════════════════════════════
-- Varargs
-- ════════════════════════════════════════════════════════════════════════

/-- With a constant count `c`, `varargs` fills the `c` registers at `dest` with the captured
varargs, padded with `Nil`, and changes no other slot. -/
theorem varargs_constant (hf : s.frames = .lua l :: rest) (hv : l.isVariable = false)
    (hb : l.bottom < l.base) {d c : Nat} (hc : l.base + d + c ≤ s.stack.length) :
    ∃ stack, varargs s d (.constant c) = some ({ s with stack }, none) ∧
      stack.length = s.stack.length ∧
      ∀ j, stack[j]? = if l.base + d ≤ j ∧ j < l.base + d + c then
        (if j - (l.base + d) < l.base - (l.bottom + 1) then
          s.stack[l.bottom + 1 + (j - (l.base + d))]? else some .nil)
        else s.stack[j]? := by
  obtain ⟨stack, hloop, hlen, hget⟩ :=
    Vec.forRange_copyOrFill .nil (show l.bottom + 1 + (l.base - (l.bottom + 1)) ≤ l.base + d by omega)
      c hc
  refine ⟨stack, ?_, hlen, hget⟩
  simp only [varargs, topLua_of_frames hf, Option.bind_eq_bind, Option.some_bind, hv,
    Bool.false_eq_true, if_false, Vec.sub, if_pos (show l.bottom + 1 ≤ l.base by omega),
    VarCount.toConstant_constant, hloop]

/-- With a variable count, `varargs` cuts or pads the stack to the register `dest` and pushes the
captured varargs, and marks the frame variable. -/
theorem varargs_variadic (hf : s.frames = .lua l :: rest) (hv : l.isVariable = false)
    (hb : l.bottom < l.base) (hlen : l.base ≤ s.stack.length) (d : Nat) :
    varargs s d .variadic = some ({ s with
      stack := s.stack.take (l.base + d) ++ List.replicate (l.base + d - s.stack.length) .nil ++
        (s.stack.drop (l.bottom + 1)).take (l.base - (l.bottom + 1)),
      frames := .lua { l with isVariable := true } :: rest }, none) := by
  have hr : (Vec.resize s.stack (l.base + d + (l.base - (l.bottom + 1))) .nil).length =
      l.base + d + (l.base - (l.bottom + 1)) := Vec.length_resize _ _ _
  have hloop : Vec.forRange (l.base - (l.bottom + 1))
      (fun i st => Vec.copyIndex st (l.bottom + 1 + i) (l.base + d + i))
      (Vec.resize s.stack (l.base + d + (l.base - (l.bottom + 1))) .nil) =
      some (Vec.moveRegion (Vec.resize s.stack (l.base + d + (l.base - (l.bottom + 1))) .nil)
        (l.bottom + 1) (l.base + d) (l.base - (l.bottom + 1))) :=
    Vec.forRange_copyIndex (by omega) (by omega) (.inr (by omega))
  simp only [varargs, topLua_of_frames hf, Option.bind_eq_bind, Option.some_bind, hv,
    Bool.false_eq_true, if_false, Vec.sub, if_pos (show l.bottom + 1 ≤ l.base by omega),
    VarCount.toConstant_variadic, hloop, Option.some.injEq, Prod.mk.injEq, and_true]
  -- the copy fills the resized stack to its end, so nothing of it survives past the copy
  rw [Vec.moveRegion, Vec.take_resize_of_le _ (by omega), Vec.take_drop_resize _ (by omega) (by omega),
    List.drop_eq_nil_of_le hr.le, List.append_nil]

/-- Vararg expansion copies exactly the captured varargs `v = stack[bottom + 1 .. base]`: a
constant count `c` sets register `dest + i` to `v[i]` below `|v|` and to `Nil` up to `c`, and
changes no other slot nor the height; a variable count leaves `stack[0 .. base + dest] ++ v`, the
stack padded with `Nil` when it is lower than `base + dest`, and marks the frame variable. -/
theorem varargs_copies_captured (hf : s.frames = .lua l :: rest) (hv : l.isVariable = false)
    (hb : l.bottom < l.base) (hlen : l.base ≤ s.stack.length) (d : Nat) :
    let v := (s.stack.drop (l.bottom + 1)).take (l.base - (l.bottom + 1))
    (∀ c, l.base + d + c ≤ s.stack.length → ∃ stack,
      varargs s d (.constant c) = some ({ s with stack }, none) ∧
      stack.length = s.stack.length ∧
      (∀ i < c, stack[l.base + d + i]? = if i < v.length then v[i]? else some .nil) ∧
      ∀ j, (j < l.base + d ∨ l.base + d + c ≤ j) → stack[j]? = s.stack[j]?) ∧
    varargs s d .variadic = some ({ s with
      stack := s.stack.take (l.base + d) ++ List.replicate (l.base + d - s.stack.length) .nil ++ v,
      frames := .lua { l with isVariable := true } :: rest }, none) := by
  intro v
  have hvlen : v.length = l.base - (l.bottom + 1) := by simp [v]; omega
  refine ⟨fun c hc => ?_, varargs_variadic hf hv hb hlen d⟩
  obtain ⟨stack, hcall, hslen, hget⟩ := varargs_constant hf hv hb hc
  refine ⟨stack, hcall, hslen, fun i hi => ?_, fun j hj => ?_⟩
  · rw [hget, if_pos (by omega), hvlen, Nat.add_sub_cancel_left]
    split_ifs with hin
    · simp [v, List.getElem?_take, hin]
    · rfl
  · rw [hget, if_neg (by omega)]


-- ════════════════════════════════════════════════════════════════════════
-- Table lists
-- ════════════════════════════════════════════════════════════════════════

/-- The loop of `set_table_list` from round `i`, with `n` values left from `stack[valuesAt + i]`
on: it stores `k = min(n, i64::MAX - start)` of them, computed over the integers, at the keys
`start + 1, …, start + k`, and ends at `start + k`. -/
theorem setListLoop_spec (stack : List Value) (valuesAt : Nat) :
    ∀ n i (start : BitVec 64), valuesAt + i + n ≤ stack.length →
      ∃ writes last, setListLoop stack valuesAt i n start = some (writes, last) ∧
        (writes.length : Int) = min (n : Int) (9223372036854775807 - start.toInt) ∧
        last.toInt = start.toInt + writes.length ∧
        ∀ j < writes.length, ∃ w, writes[j]? = some w ∧ w.1.toInt = start.toInt + 1 + j ∧
          stack[valuesAt + i + j]? = some w.2
  | 0, _, start, _ => ⟨[], start, rfl, by have := toInt_le_max start; simp; omega, by simp,
      fun _ h => absurd h (Nat.not_lt_zero _)⟩
  | n + 1, i, start, hn => by
    by_cases hlt : start.toInt < 9223372036854775807
    · have hinc := toInt_add_one hlt
      obtain ⟨writes, last, hloop, hk, hlast, hw⟩ :=
        setListLoop_spec stack valuesAt n (i + 1) (start + 1) (by omega)
      obtain ⟨v, hv⟩ : ∃ v, stack[valuesAt + i]? = some v :=
        ⟨_, List.getElem?_eq_getElem (by omega)⟩
      refine ⟨(start + 1, v) :: writes, last, ?_, ?_, ?_, fun j hj => ?_⟩
      · simp only [setListLoop, checkedAddOne, if_pos hlt, Vec.get, hv, hloop,
          Option.bind_eq_bind, Option.some_bind]
      · simp only [List.length_cons]; omega
      · simp only [List.length_cons]; omega
      · cases j with
        | zero => exact ⟨(start + 1, v), List.getElem?_cons_zero,
            show (start + 1).toInt = _ by omega, hv⟩
        | succ j =>
          obtain ⟨w, hwj, hkey, hval⟩ := hw j (by simpa using hj)
          refine ⟨w, by rw [List.getElem?_cons_succ]; exact hwj, by rw [hkey, hinc]; omega, ?_⟩
          rwa [show valuesAt + i + (j + 1) = valuesAt + (i + 1) + j by omega]
    · have hmax : start.toInt = 9223372036854775807 := by have := toInt_le_max start; omega
      refine ⟨[], start, ?_, by simp only [List.length_nil, hmax]; omega, by simp,
        fun _ h => absurd h (Nat.not_lt_zero _)⟩
      simp only [setListLoop, checkedAddOne, if_neg hlt]

/-- On a frame whose variability matches the count, with a table in register `tb` and an integer
in register `tb + 1`, `set_table_list` makes the writes of its loop, stores the last key in
register `tb + 1`, and for a variable count cuts the stack back to the frame's registers. -/
theorem setTableList_eq (host : Host) (hf : s.frames = .lua l :: rest) {count : VarCount}
    (hvar : count.isVariable = l.isVariable) {tb t : Nat} {start : BitVec 64}
    (ht : s.stack[l.base + tb]? = some (.table t))
    (hs : s.stack[l.base + tb + 1]? = some (.integer start))
    (hn : l.base + tb + 2 ≤ s.stack.length) {writes : List (BitVec 64 × Value)} {last : BitVec 64}
    (hloop : setListLoop s.stack (l.base + tb + 2) 0
      (count.toConstant.getD (s.stack.length - (l.base + tb + 2))) start = some (writes, last)) :
    setTableList host s tb count = some (
      if count.isVariable then
        { s with
          stack :=
            Vec.resize (s.stack.set (l.base + tb + 1) (.integer last)) (l.base + l.stackSize) .nil
          frames := .lua { l with isVariable := false } :: rest }
      else { s with stack := s.stack.set (l.base + tb + 1) (.integer last) },
      some (t, writes), none) := by
  simp only [setTableList, topLua_of_frames hf, Option.bind_eq_bind, Option.some_bind,
    if_neg (show ¬(count.isVariable ≠ l.isVariable) from fun h => h hvar), Vec.get, ht, Vec.sub,
    if_pos hn, hs, hloop, Vec.set, if_pos (show l.base + tb + 1 < s.stack.length by omega)]
  split <;> rfl

/-- On a frame whose variability differs from the count, `set_table_list` returns
`ExpectedVariableStack` at once: it writes nothing and leaves the thread as it was. -/
theorem setTableList_mismatch (host : Host) (hf : s.frames = .lua l :: rest) {count : VarCount}
    (hvar : count.isVariable ≠ l.isVariable) (tb : Nat) :
    setTableList host s tb count =
      some (s, none, some (.expectedVariableStack count.isVariable)) := by
  unfold setTableList
  rw [topLua_of_frames hf]
  exact if_pos hvar

/-- On a frame whose variability matches the count, with a table in register `tb`,
`Integer(start)` in register `tb + 1` of the frame and the `n` values of the count above them,
`set_table_list` writes `k = min(n, i64::MAX - start)` entries, the `i`-th at key `start + 1 + i`
with value `i`, and stores `start + k` in register `tb + 1`; for a variable count it then cuts the
stack to `base + stack_size` and clears `is_variable`. -/
theorem setTableList_spec (host : Host) (hf : s.frames = .lua l :: rest)
    {count : VarCount} (hvar : count.isVariable = l.isVariable) {tb t : Nat} {start : BitVec 64}
    (hreg : tb + 1 < l.stackSize) (ht : s.stack[l.base + tb]? = some (.table t))
    (hs : s.stack[l.base + tb + 1]? = some (.integer start)) {n : Nat}
    (hcount : n = count.toConstant.getD (s.stack.length - (l.base + tb) - 2))
    (hn : l.base + tb + 2 + n ≤ s.stack.length) :
    ∃ writes last s', setTableList host s tb count = some (s', some (t, writes), none) ∧
      (writes.length : Int) = min (n : Int) (9223372036854775807 - start.toInt) ∧
      (∀ i < writes.length, ∃ w, writes[i]? = some w ∧ w.1.toInt = start.toInt + 1 + i ∧
        s.stack[l.base + tb + 2 + i]? = some w.2) ∧
      last.toInt = start.toInt + writes.length ∧
      s'.stack[l.base + tb + 1]? = some (.integer last) ∧
      (count.isVariable = true → s'.stack.length = l.base + l.stackSize ∧
        s'.frames = .lua { l with isVariable := false } :: rest) := by
  rw [Nat.sub_sub] at hcount
  subst hcount
  obtain ⟨writes, last, hloop, hk, hlast, hw⟩ := setListLoop_spec s.stack (l.base + tb + 2)
    (count.toConstant.getD (s.stack.length - (l.base + tb + 2))) 0 start (by omega)
  have hlen : l.base + tb + 1 < s.stack.length := by omega
  refine ⟨writes, last, _, setTableList_eq host hf hvar ht hs (by omega) hloop, hk,
    fun i hi => by simpa only [Nat.add_zero] using hw i hi, hlast, ?_, fun hv => ?_⟩
  · cases hc : count.isVariable
    · simp [List.getElem?_set, hlen]
    · simp only [hc, if_true, Vec.getElem?_resize, List.length_set, List.getElem?_set, hlen,
        if_pos (show l.base + tb + 1 < l.base + l.stackSize by omega), if_true]
  · simp [hv, Vec.length_resize]

/-- `SETLIST` never overflows and writes exactly the intended keys: on a frame whose variability
matches the count it makes the writes of `setTableList_spec`, and on a frame whose variability
differs from the count it writes nothing and returns `ExpectedVariableStack`. -/
theorem setTableList_writes_keys (host : Host) :
    (∀ (s : ThreadState) (l : LuaFields) (rest : List Frame) (count : VarCount) (tb : Nat),
      s.frames = .lua l :: rest → count.isVariable ≠ l.isVariable →
      setTableList host s tb count =
        some (s, none, some (.expectedVariableStack count.isVariable))) ∧
    ∀ (s : ThreadState) (l : LuaFields) (rest : List Frame) (count : VarCount) (tb t n : Nat)
      (start : BitVec 64), s.frames = .lua l :: rest → count.isVariable = l.isVariable →
      tb + 1 < l.stackSize → s.stack[l.base + tb]? = some (.table t) →
      s.stack[l.base + tb + 1]? = some (.integer start) →
      n = count.toConstant.getD (s.stack.length - (l.base + tb) - 2) →
      l.base + tb + 2 + n ≤ s.stack.length →
      ∃ writes last s', setTableList host s tb count = some (s', some (t, writes), none) ∧
        (writes.length : Int) = min (n : Int) (9223372036854775807 - start.toInt) ∧
        (∀ i < writes.length, ∃ w, writes[i]? = some w ∧ w.1.toInt = start.toInt + 1 + i ∧
          s.stack[l.base + tb + 2 + i]? = some w.2) ∧
        last.toInt = start.toInt + writes.length ∧
        s'.stack[l.base + tb + 1]? = some (.integer last) ∧
        (count.isVariable = true → s'.stack.length = l.base + l.stackSize ∧
          s'.frames = .lua { l with isVariable := false } :: rest) :=
  ⟨fun _ _ _ _ tb hf hvar => setTableList_mismatch host hf hvar tb,
    fun _ _ _ _ _ _ _ _ hf hvar hreg ht hs hcount hn =>
      setTableList_spec host hf hvar hreg ht hs hcount hn⟩

end LuaFrame

/-- A frame at base `3` that captured the two varargs `1, 2`: a constant count of two places them
in registers `0` and `1`, and a variable count pushes them right above the base. -/
theorem varargs_copies_captured_two :
    (∃ stack, LuaFrame.varargs ⟨[.lua ⟨0, 3, false, 0, 2, none⟩],
        [.nil, .integer 1, .integer 2, .nil, .nil], []⟩ 0 (.constant 2) =
      some (⟨[.lua ⟨0, 3, false, 0, 2, none⟩], stack, []⟩, none) ∧
      stack[3]? = some (.integer 1) ∧ stack[4]? = some (.integer 2)) ∧
    LuaFrame.varargs ⟨[.lua ⟨0, 3, false, 0, 2, none⟩],
        [.nil, .integer 1, .integer 2, .nil, .nil], []⟩ 0 .variadic =
      some (⟨[.lua ⟨0, 3, true, 0, 2, none⟩],
        [.nil, .integer 1, .integer 2, .integer 1, .integer 2], []⟩, none) := by
  obtain ⟨hc, hvar⟩ := @LuaFrame.varargs_copies_captured
    ⟨[.lua ⟨0, 3, false, 0, 2, none⟩], [.nil, .integer 1, .integer 2, .nil, .nil], []⟩
    ⟨0, 3, false, 0, 2, none⟩ [] rfl rfl (by decide) (by decide) 0
  obtain ⟨stack, hcall, -, hget, -⟩ := hc 2 (by decide)
  exact ⟨⟨stack, hcall, hget 0 (by decide), hget 1 (by decide)⟩, hvar⟩

/-- Two values stored from key `0` into table `7`: both are written and the key register ends at
`2`. -/
theorem setTableList_writes_keys_two :
    ∃ (writes : List (BitVec 64 × Value)) (last : BitVec 64) (s' : ThreadState),
      LuaFrame.setTableList Host.functionsOnly
        ⟨[.lua ⟨0, 1, false, 0, 4, none⟩], [.nil, .table 7, .integer 0, .integer 10, .integer 20], []⟩
        0 (.constant 2) = some (s', some (7, writes), none) ∧
      writes.length = 2 ∧ last.toInt = 2 ∧ s'.stack[2]? = some (.integer last) := by
  obtain ⟨writes, last, s', hcall, hk, -, hlast, hreg, -⟩ :=
    (LuaFrame.setTableList_writes_keys Host.functionsOnly).2
      ⟨[.lua ⟨0, 1, false, 0, 4, none⟩], [.nil, .table 7, .integer 0, .integer 10, .integer 20], []⟩
      ⟨0, 1, false, 0, 4, none⟩ [] (.constant 2) 0 7 2 0 rfl rfl (by decide) rfl rfl rfl
      (by decide)
  have h0 : (0 : BitVec 64).toInt = 0 := rfl
  exact ⟨writes, last, s', hcall, by omega, by omega, hreg⟩

/-- On a variable frame, `set_table_list` with a constant count returns `ExpectedVariableStack`
before it reads a register: table `7` gets no entry and the key register keeps `0`. -/
theorem setTableList_constant_count_on_variable_frame :
    LuaFrame.setTableList Host.functionsOnly
        ⟨[.lua ⟨0, 1, true, 0, 4, none⟩], [.nil, .table 7, .integer 0, .integer 10], []⟩
        0 (.constant 1) =
      some (⟨[.lua ⟨0, 1, true, 0, 4, none⟩], [.nil, .table 7, .integer 0, .integer 10], []⟩, none,
        some (.expectedVariableStack false)) :=
  rfl

end Piccolo
