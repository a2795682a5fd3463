import Piccolo.Thread.LuaFrame
import Piccolo.Thread.Shape

/-!
# The frame operations of `run_vm` keep the shape

Each operation of `LuaFrame` and `LuaRegisters` on a thread of the right `Shape` leaves it of the
right shape, and when it returns an error, leaves the frames on which the executor pushes the
`Error` frame in a shape `ErrorOn` admits.

## Main definitions

- `ThreadState.ShapedAfter` — the shape an operation leaves, by the error it returned

## Design notes

Only the calls that place a new frame at a register, `call_function` and `call_function_keep`,
need their register operands inside the caller's window, and only for `upper`: the bottom of the
new frame is that register. `call_meta_function` places its frame at the end of the window, and
every other operation keeps or pops frames.

Each proof reads the operation's `*_cases` lemma of `LuaFrame` and discharges its branches: a
call's new frame by `Called.shaped` and a return by `Returned.shaped`, which `push_call` and
`return_to` share.
-/

namespace Piccolo

/-- What a frame operation leaves: the whole shape when it succeeded, and the frames an `Error`
frame is pushed on when it returned an error. -/
def ThreadState.ShapedAfter (upper : Bool) (s : ThreadState) : Option VMError → Prop
  | none => s.Shaped upper
  | some _ => ErrorOn upper s.frames s.stack.length

variable {upper : Bool}

/-- The shape reads the frames, the height of the stack and the open list only. -/
theorem shaped_congr {s s' : ThreadState} (h : s.Shaped upper) (hf : s'.frames = s.frames)
    (hl : s'.stack.length = s.stack.length) (hu : s'.openUpvalues = s.openUpvalues) :
    s'.Shaped upper := by
  show Shape upper s'.frames s'.stack.length s'.openUpvalues
  rwa [hf, hl, hu]

/-- Writing the stack without changing its height keeps the shape. -/
theorem shaped_setStack {s : ThreadState} {stack : List Value} (h : s.Shaped upper)
    (hl : stack.length = s.stack.length) : ({ s with stack } : ThreadState).Shaped upper :=
  shaped_congr h rfl hl rfl

/-- Changing the open upvalues under a Lua frame keeps the shape. -/
theorem shaped_setUps {s : ThreadState} {l : LuaFields} {rest : List Frame}
    {ups : List UpValueId} (h : s.Shaped upper) (hf : s.frames = .lua l :: rest) :
    ({ s with openUpvalues := ups } : ThreadState).Shaped upper :=
  Shape.congr_ups h fun _ _ he => by rw [hf] at he; cases he

/-- The top Lua frame `l` after it made a call at `b` that returns `ret`: the frames beneath the
callee. -/
theorem below_caller {l : LuaFields} {rest : List Frame} {len : Nat} {ups : List UpValueId}
    (ret : LuaReturn) {b : Nat} (h : Shape upper (.lua l :: rest) len ups) (hb : l.base ≤ b)
    (hw : upper → b ≤ l.base + l.stackSize)
    (hm : ∀ slot, ret = .meta slot → b = l.base + l.stackSize) :
    Below upper (.lua { l with expectedReturn := some ret } :: rest) b ∧
      Callers upper (.lua { l with expectedReturn := some ret } :: rest) :=
  ⟨⟨Option.some_ne_none _, hb, hw, fun slot hs => hm slot (Option.some.inj hs)⟩, h.1, h.2.2⟩

/-- An error returned with the top Lua frame still in place lands on it. -/
theorem shapedAfter_some_of_lua {s : ThreadState} {l : LuaFields} {rest : List Frame}
    {e : VMError} (h : s.Shaped upper) (hf : s.frames = .lua l :: rest) :
    s.ShapedAfter upper (some e) := by
  show ErrorOn upper s.frames s.stack.length
  rw [ThreadState.Shaped, hf] at h
  rw [hf]
  exact errorOn_of_lua h

/-- An error returned once the top Lua frame recorded the return it expects lands on it. -/
theorem errorOn_caller {l : LuaFields} {rest : List Frame} {len : Nat} {ups : List UpValueId}
    (h : Shape upper (.lua l :: rest) len ups) (ret : Option LuaReturn) :
    ErrorOn upper (.lua { l with expectedReturn := ret } :: rest) len :=
  (errorOn_of_lua h :)

/-- A Lua frame on top whose variable flag and stack height agree keeps the shape. -/
theorem shaped_setVariable {s s' : ThreadState} {l : LuaFields} {rest : List Frame} {v : Bool}
    (h : s.Shaped upper) (hf : s.frames = .lua l :: rest)
    (hf' : s'.frames = .lua { l with isVariable := v } :: rest)
    (hl : if v then l.base ≤ s'.stack.length else s'.stack.length = l.base + l.stackSize) :
    s'.Shaped upper := by
  rw [ThreadState.Shaped, hf] at h
  show Shape upper s'.frames s'.stack.length s'.openUpvalues
  rw [hf']
  exact ⟨h.1, hl, h.2.2⟩

namespace LuaFrame

variable {host : Host} {s s' : ThreadState} {e : Option VMError}

theorem shapedAfter_varargs {dest : Nat} {count : VarCount} (h : s.Shaped upper)
    (hs : varargs s dest count = some (s', e)) : s'.ShapedAfter upper e := by
  obtain ⟨l, rest, hf, hu, ⟨rfl, rfl⟩ | ⟨rfl, hf', hl⟩ | ⟨rfl, hf', hl⟩⟩ := varargs_cases hs
  · exact shapedAfter_some_of_lua h hf
  · exact shaped_congr h hf' hl hu
  · exact shaped_setVariable h hf hf' (by simpa using hl)

theorem shapedAfter_setTableList {tableBase : Nat} {count : VarCount}
    {w : Option (Nat × List (BitVec 64 × Value))} (h : s.Shaped upper)
    (hs : setTableList host s tableBase count = some (s', w, e)) : s'.ShapedAfter upper e := by
  obtain ⟨l, rest, hf, hu, ⟨rfl, -, _, rfl⟩ | ⟨rfl, hf', hl⟩ | ⟨rfl, hf', hl⟩⟩ :=
    setTableList_cases hs
  · exact shapedAfter_some_of_lua h hf
  · exact shaped_congr h hf' hl hu
  · exact shaped_setVariable h hf hf' (by simpa using hl)

theorem shapedAfter_callFunction {func : Nat} {args returns : VarCount} (h : s.Shaped upper)
    (hw : upper → ∀ l rest, s.frames = .lua l :: rest → func < l.stackSize)
    (hs : callFunction host s func args returns = some (s', e)) : s'.ShapedAfter upper e := by
  obtain ⟨l, rest, hf, -, hcases⟩ := callFunction_cases hs
  have hl : Shape upper (.lua l :: rest) s.stack.length s.openUpvalues := hf ▸ h
  rcases hcases with ⟨rfl, rfl⟩ | ⟨te, rfl, rfl⟩ | ⟨rfl, hc⟩
  · exact shapedAfter_some_of_lua h hf
  · exact errorOn_caller hl _
  · obtain ⟨hbelow, hcallers⟩ := below_caller (.normal returns) hl (Nat.le_add_right l.base func)
      (fun hu => by have := hw hu l rest hf; omega) (fun _ h => by cases h)
    exact hc.shaped hbelow hcallers

theorem shapedAfter_callFunctionKeep {func argCount : Nat} {returns : VarCount}
    (h : s.Shaped upper)
    (hw : upper → ∀ l rest, s.frames = .lua l :: rest → func + argCount < l.stackSize)
    (hs : callFunctionKeep host s func argCount returns = some (s', e)) :
    s'.ShapedAfter upper e := by
  obtain ⟨l, rest, hf, -, hcases⟩ := callFunctionKeep_cases hs
  have hl : Shape upper (.lua l :: rest) s.stack.length s.openUpvalues := hf ▸ h
  rcases hcases with ⟨rfl, rfl⟩ | ⟨te, rfl, rfl⟩ | ⟨rfl, hc⟩
  · exact shapedAfter_some_of_lua h hf
  · exact errorOn_caller hl _
  · obtain ⟨hbelow, hcallers⟩ := below_caller (.normal returns) hl
      (show l.base ≤ l.base + func + 1 + argCount by omega)
      (fun hu => by have := hw hu l rest hf; omega) (fun _ h => by cases h)
    exact hc.shaped hbelow hcallers

theorem shapedAfter_callMetaFunction {func : Function} {args : List Value}
    {retIndex : Option Nat} (h : s.Shaped upper)
    (hs : callMetaFunction host s func args retIndex = some (s', e)) : s'.ShapedAfter upper e := by
  obtain ⟨l, rest, hf, hu, hcases⟩ := callMetaFunction_cases hs
  have hl : Shape upper (.lua l :: rest) s.stack.length s.openUpvalues := hf ▸ h
  obtain ⟨hbelow, hcallers⟩ := below_caller (.meta retIndex) hl (Nat.le_add_right _ _)
    (fun _ => le_rfl) (fun _ _ => rfl)
  rcases hcases with ⟨rfl, rfl⟩ | ⟨hv, ⟨te, rfl, rfl⟩ | ⟨rfl, hc⟩ | ⟨rfl, cb, -, hst, hf'⟩⟩
  · exact shapedAfter_some_of_lua h hf
  · exact errorOn_caller hl _
  · exact hc.shaped hbelow hcallers
  · have hlen : s.stack.length = l.base + l.stackSize := by simpa [hv] using hl.2.1
    show Shape upper s'.frames s'.stack.length s'.openUpvalues
    rw [hf', hst]
    exact ⟨by simp; omega, hbelow, hcallers⟩

/-- The frames beneath the returning or tail-calling frame `l` can take an `Error` frame. -/
theorem errorOn_rest {l : LuaFields} {rest : List Frame} {len : Nat} {ups : List UpValueId}
    (h : Shape upper (.lua l :: rest) len ups) : ErrorOn upper rest len :=
  errorOn_of_below h.2.2.1 h.2.2.2 (by have := h.base_le_of_lua; have := h.1; omega)

theorem shapedAfter_tailCallFunction {self : ThreadId} {cells cells' : Cells} {func : Nat}
    {args : VarCount} (h : s.Shaped upper)
    (hs : tailCallFunction host self s cells func args = some (s', cells', e)) :
    s'.ShapedAfter upper e := by
  obtain ⟨l, rest, hf, hcases⟩ := tailCallFunction_cases hs
  have hl : Shape upper (.lua l :: rest) s.stack.length s.openUpvalues := hf ▸ h
  rcases hcases with ⟨rfl, -, rfl⟩ | ⟨s₂, hc, -, ⟨te, rfl, rfl⟩ | ⟨rfl, hcall⟩⟩
  · exact errorOn_rest hl
  · show ErrorOn upper s'.frames s'.stack.length
    rw [ThreadState.eq_of_closeUpvalues hc]
    exact errorOn_rest hl
  · exact hcall.shaped hl.2.2.1 hl.2.2.2

theorem shapedAfter_returnUpper {self : ThreadId} {cells cells' : Cells} {start : Nat}
    {count : VarCount} (h : s.Shaped upper)
    (hs : returnUpper self s cells start count = some (s', cells', e)) :
    s'.ShapedAfter upper e := by
  obtain ⟨l, rest, hf, hcases⟩ := returnUpper_cases hs
  have hl : Shape upper (.lua l :: rest) s.stack.length s.openUpvalues := hf ▸ h
  rcases hcases with ⟨rfl, -, rfl⟩ | ⟨rfl, s₂, n, hc, hr⟩
  · exact errorOn_rest hl
  · have hframes : s₂.frames = rest := by rw [ThreadState.eq_of_closeUpvalues hc]
    refine (returnValues_cases hr).2.shaped ?_ ?_ <;> rw [hframes]
    exacts [hl.2.2.1, hl.2.2.2]

end LuaFrame

namespace LuaRegisters

variable {self : ThreadId} {cells cells' : Cells}

/-- The registers are those of a Lua frame on top. -/
theorem frames_of_registers {s : ThreadState} {r : Nat × Nat} (h : registers s = some r) :
    ∃ l rest, s.frames = .lua l :: rest := by
  unfold registers at h
  obtain ⟨l, rest, hf, -⟩ := topLua_bind_eq_some h
  exact ⟨l, rest, hf⟩

theorem shaped_openUpvalue {s s' : ThreadState} {reg : Nat} {u : UpValueId} (h : s.Shaped upper)
    (ho : openUpvalue self s cells reg = some (u, s', cells')) : s'.Shaped upper := by
  obtain ⟨⟨_, hr⟩, ⟨rfl, -⟩ | ⟨_, _, rfl, -⟩⟩ := openUpvalue_cases ho
  · exact h
  · obtain ⟨l, rest, hf⟩ := frames_of_registers hr
    exact shaped_setUps h hf

theorem shaped_closeUpvalues {s s' : ThreadState} {reg : Nat} (h : s.Shaped upper)
    (hc : closeUpvalues self s cells reg = some (s', cells')) : s'.Shaped upper := by
  rw [closeUpvalues_eq] at hc
  obtain ⟨_, hr, hc⟩ := Option.bind_eq_some.1 hc
  obtain ⟨l, rest, hf⟩ := frames_of_registers hr
  rw [ThreadState.eq_of_closeUpvalues hc]
  exact shaped_setUps h hf

theorem shaped_setUpvalue {threads threads' : ThreadId → ThreadState} {u : UpValueId} {v : Value}
    (h : setUpvalue self threads cells u v = some (threads', cells')) {t : ThreadId}
    (ht : (threads t).Shaped upper) : (threads' t).Shaped upper := by
  obtain ⟨_, hl, he⟩ := threads_of_setUpvalue h t
  rw [he]
  exact shaped_setStack ht hl

end LuaRegisters

end Piccolo
