import Piccolo.Thread.LuaFrame

/-!
# The two return paths agree

A frame finishes in one of two ways. A Lua frame runs `LuaFrame::return_upper`, which copies its
results out of its registers down to its own bottom. Every other frame (a callback, a sequence, a
thread that yields or finishes) first leaves its results on top of the stack and then calls
`ThreadState::return_to(bottom)`. This file proves that both deliver the results to the frame
beneath in the same way.

## Main definitions

- `returnSpec` — what a return does to the frame beneath and the stack, in the words of the
  return discipline: the kept stack `below`, and the returned values `vs`
- `ReturnsTo` — the frame beneath can take a return from `bottom`

## Main results

- `returnTo_eq_returnSpec` — `return_to` computes `returnSpec`
- `returnValues_eq_returnSpec` — the copy loops of `return_upper` compute `returnSpec`
- `returnUpper_returnTo_agree` — the two paths leave the same frames and stack

## Design notes

`ReturnsTo` holds what the two paths need of the frame beneath: a Lua frame expects a return, and
a metamethod call into it started at the end of its register window with its result register
inside it; a sequence frame has the returning frame's bottom; without a frame the bottom is `0`.
-/

namespace Piccolo

/-- The effect of a return on the frames beneath the returning frame and on the stack, where
`below` is the stack up to the returning frame's bottom and `vs` are the returned values. -/
def returnSpec (rest : List Frame) (below vs : List Value) : Option (List Frame × List Value) :=
  match rest with
  | .lua l :: rest' =>
    match l.expectedReturn with
    | some (.normal (.constant c)) =>
      some (.lua { l with isVariable := false } :: rest',
        Vec.resize (below ++ Vec.resize vs c .nil) (l.base + l.stackSize) .nil)
    | some (.normal .variadic) => some (.lua { l with isVariable := true } :: rest', below ++ vs)
    | some (.meta slot) =>
      some (.lua { l with isVariable := false } :: rest',
        match slot with
        | some i => below.set (l.base + i) (vs.headD .nil)
        | none => below)
    | none => none
  | .sequence .. :: _ => some (rest, below ++ vs)
  | [] => some ([.result 0], vs)
  | _ => none

/-- The frames `rest` can take a return of the values above `bottom`. -/
def ReturnsTo : List Frame → Nat → Prop
  | .lua l :: _, bottom =>
    match l.expectedReturn with
    | some (.normal _) => True
    | some (.meta slot) => bottom = l.base + l.stackSize ∧ ∀ i ∈ slot, i < l.stackSize
    | none => False
  | .sequence b _ _ :: _, bottom => bottom = b
  | [], bottom => bottom = 0
  | _, _ => False

instance (rest : List Frame) (bottom : Nat) : Decidable (ReturnsTo rest bottom) := by
  unfold ReturnsTo; split <;> (try split) <;> infer_instance

theorem returnSpec_isSome {rest : List Frame} {bottom : Nat} (below vs : List Value)
    (h : ReturnsTo rest bottom) : ∃ p, returnSpec rest below vs = some p := by
  match rest, h with
  | [], _ => exact ⟨_, rfl⟩
  | .sequence .. :: _, _ => exact ⟨_, rfl⟩
  | .lua l :: _, h =>
    unfold ReturnsTo at h
    rcases her : l.expectedReturn with _ | (_ | _) | _ <;> simp_all [returnSpec]

-- ════════════════════════════════════════════════════════════════════════
-- `return_to`
-- ════════════════════════════════════════════════════════════════════════

theorem returnTo_eq_returnSpec {rest : List Frame} {below : List Value} (vs : List Value)
    (ups : List UpValueId) (h : ReturnsTo rest below.length) :
    (ThreadState.returnTo ⟨rest, below ++ vs, ups⟩ below.length).map (fun t => (t.frames, t.stack)) =
      returnSpec rest below vs := by
  match rest, h with
  | [], h =>
    simp only [ReturnsTo, List.length_eq_zero] at h
    subst h; rfl
  | .sequence b seq pe :: rest', h =>
    simp only [ReturnsTo] at h
    subst h
    simp [ThreadState.returnTo, returnSpec]
  | .lua l :: rest', h =>
    unfold ReturnsTo at h
    rcases her : l.expectedReturn with _ | ⟨c | _⟩ | ⟨slot⟩
    · simp [her] at h
    · simp only [ThreadState.returnTo, returnSpec, her, Vec.sub, List.length_append,
        Nat.le_add_right, if_true, Nat.add_sub_cancel_left, Option.some_bind,
        VarCount.toConstant_constant, Option.getD_some, VarCount.isVariable_constant,
        Bool.false_eq_true, if_false, Option.map_some', List.take_append_eq_append_take,
        List.take_of_length_le (Nat.le_add_right _ _)]
      show _ = some (_, Vec.resize (below ++ (vs.take c ++ List.replicate (c - vs.length) .nil)) _ _)
      rw [← List.append_assoc, Vec.resize_append_replicate]
      rfl
    · simp [ThreadState.returnTo, returnSpec, her, Vec.sub]
    · simp only [her] at h
      obtain ⟨hb, hslot⟩ := h
      have hres : Vec.resize below (l.base + l.stackSize) .nil = below := by
        rw [Vec.resize_of_length_le _ hb.ge, List.take_of_length_le hb.le]
      have hhead : (below ++ vs)[below.length]?.getD .nil = vs.headD .nil := by
        rw [List.getElem?_append_right le_rfl, Nat.sub_self]; cases vs <;> simp
      cases slot with
      | none => simp [ThreadState.returnTo, returnSpec, her, Vec.sub, hres]
      | some i =>
        have hi : l.base + i < below.length := by have := hslot i rfl; omega
        simp [ThreadState.returnTo, returnSpec, her, Vec.sub, hres, hhead, Vec.set_of_lt _ hi]

-- ════════════════════════════════════════════════════════════════════════
-- `return_upper`
-- ════════════════════════════════════════════════════════════════════════

/-- The value delivery of `return_upper`: `n` values copied down from register `start` to
`bottom`. -/
theorem returnValues_eq_returnSpec {rest : List Frame} {stack : List Value} (ups : List UpValueId)
    {bottom start n : Nat} (hb : bottom ≤ start) (hn : start + n ≤ stack.length)
    (h : ReturnsTo rest bottom) :
    (LuaFrame.returnValues ⟨rest, stack, ups⟩ bottom start n).map (fun t => (t.frames, t.stack)) =
      returnSpec rest (stack.take bottom) ((stack.drop start).take n) := by
  have hcopy := Vec.copyWithin_eq_moveRegion hn (show bottom + n ≤ stack.length by omega)
  have htake := Vec.take_moveRegion (show bottom ≤ stack.length by omega) hn
  match rest, h with
  | [], h =>
    subst h
    simp only [Nat.zero_add, List.take_zero, List.nil_append] at htake
    simp [LuaFrame.returnValues, returnSpec, hcopy, htake]
  | .sequence b seq pe :: rest', h =>
    simp only [ReturnsTo] at h
    subst h
    simp [LuaFrame.returnValues, returnSpec, hcopy, htake]
  | .lua l :: rest', h =>
    unfold ReturnsTo at h
    rcases her : l.expectedReturn with _ | ⟨c | _⟩ | ⟨slot⟩
    · simp [her] at h
    · simp only [LuaFrame.returnValues, her, Option.bind_eq_bind]
      rw [← Option.bind_assoc, Vec.returnLoops _ hb hn]
      simp [returnSpec, her]
    · have hvs : ((stack.drop start).take n).length = n := by simp; omega
      simp only [LuaFrame.returnValues, her, Option.bind_eq_bind]
      rw [← Option.bind_assoc, Vec.returnLoops _ hb hn]
      simp [returnSpec, her, Vec.resize_of_length_le _ hvs.ge, List.take_of_length_le hvs.le]
    · simp only [her] at h
      obtain ⟨hbot, hslot⟩ := h
      have hres : Vec.resize stack (l.base + l.stackSize) .nil = stack.take bottom := by
        rw [Vec.resize_of_length_le _ (by omega), hbot]
      -- the result register receives the first returned value, or `Nil` when there is none
      have hret : ∀ k : Value → Option ThreadState,
          (if n > 0 then Vec.get stack start >>= k else some .nil >>= k) =
            k (((stack.drop start).take n).headD .nil) := by
        intro k
        rcases Nat.eq_zero_or_pos n with rfl | hpos
        · rfl
        · have h : start < stack.length := by omega
          obtain ⟨m, rfl⟩ := Nat.exists_eq_add_of_lt hpos
          rw [if_pos hpos, Vec.get, List.getElem?_eq_getElem h, List.drop_eq_getElem_cons h]
          rfl
      simp only [LuaFrame.returnValues, her]
      rw [hret, hres]
      cases slot with
      | none => simp [returnSpec, her]
      | some i =>
        have hi : l.base + i < (stack.take bottom).length := by have := hslot i rfl; simp; omega
        simp [returnSpec, her, Vec.set_of_lt _ hi]

/-- A Lua frame `f` returning `n` values from register `start` with `return_upper`, and any other
frame with bottom `f.bottom` that left the same values above the same kept stack and called
`return_to`, leave the same frames and stack, which are the ones `returnSpec` describes.
`return_upper` also closes the upvalues above `f.bottom`, and panics exactly when that panics. -/
theorem returnUpper_returnTo_agree (self : ThreadId) (s : ThreadState) (cells : Cells)
    (f : LuaFields) (rest : List Frame) (start n : Nat) (count : VarCount)
    (hs : s.frames = .lua f :: rest) (hvar : f.isVariable = count.isVariable)
    (hbase : f.bottom ≤ f.base) (hn : f.base + start + n ≤ s.stack.length)
    (hcount : count.toConstant.getD (s.stack.length - (f.base + start)) = n)
    (hto : ReturnsTo rest f.bottom) :
    ∃ frames stack,
      returnSpec rest (s.stack.take f.bottom) ((s.stack.drop (f.base + start)).take n) =
        some (frames, stack) ∧
      (∀ ups, (ThreadState.returnTo
          ⟨rest, s.stack.take f.bottom ++ (s.stack.drop (f.base + start)).take n, ups⟩
          f.bottom).map (fun t => (t.frames, t.stack)) = some (frames, stack)) ∧
      (LuaFrame.returnUpper self s cells start count).map (fun r => (r.1.frames, r.1.stack, r.2.2)) =
        (s.closeUpvalues self cells f.bottom).map fun _ => (frames, stack, none) := by
  have hlen : (s.stack.take f.bottom).length = f.bottom := by simp; omega
  obtain ⟨⟨frames, stack⟩, hspec⟩ := returnSpec_isSome (s.stack.take f.bottom)
    ((s.stack.drop (f.base + start)).take n) hto
  refine ⟨frames, stack, hspec, fun ups => ?_, ?_⟩
  · have h := returnTo_eq_returnSpec ((s.stack.drop (f.base + start)).take n) ups
      (show ReturnsTo rest _ from hlen.symm ▸ hto)
    rwa [hlen, hspec] at h
  · simp only [LuaFrame.returnUpper, topLua, hs, hvar, ne_eq, not_true_eq_false, if_false,
      Option.bind_eq_bind, Option.some_bind, ThreadState.closeUpvalues_setFrames]
    rcases hc : s.closeUpvalues self cells f.bottom with _ | ⟨t, cells'⟩
    · rfl
    · have ht := ThreadState.eq_of_closeUpvalues hc
      have hvals := returnValues_eq_returnSpec t.openUpvalues
        (show f.bottom ≤ f.base + start by omega) hn hto
      rw [hspec, Option.map_eq_some'] at hvals
      obtain ⟨r, hr, hfs⟩ := hvals
      rw [ht]
      simp only [Option.map_some', Option.some_bind, Vec.sub,
        if_pos (show f.base + start ≤ s.stack.length by omega), hcount, hr]
      simp only [Prod.mk.injEq] at hfs
      rw [hfs.1, hfs.2]

/-- A callee with one register returns it into a caller that expects two values: the second is
padded with `nil`. -/
theorem returnUpper_returnTo_agree_padded :
    let f : LuaFields := ⟨2, 3, false, 0, 2, none⟩
    let rest : List Frame := [.lua ⟨0, 1, false, 0, 3, some (.normal (.constant 2))⟩]
    let s : ThreadState := ⟨.lua f :: rest, [.nil, .integer 1, .integer 2, .nil, .integer 7], []⟩
    let cells : Cells := ⟨fun _ => .closed .nil, 0⟩
    ReturnsTo rest f.bottom ∧ f.base + 1 + 1 ≤ s.stack.length ∧
    ∃ frames stack,
      returnSpec rest (s.stack.take f.bottom) ((s.stack.drop (f.base + 1)).take 1) =
        some (frames, stack) ∧
      (∀ ups, (ThreadState.returnTo
          ⟨rest, s.stack.take f.bottom ++ (s.stack.drop (f.base + 1)).take 1, ups⟩
          f.bottom).map (fun t => (t.frames, t.stack)) = some (frames, stack)) ∧
      (LuaFrame.returnUpper 0 s cells 1 (.constant 1)).map (fun r => (r.1.frames, r.1.stack, r.2.2)) =
        (s.closeUpvalues 0 cells f.bottom).map fun _ => (frames, stack, none) :=
  ⟨by decide, by decide,
    returnUpper_returnTo_agree 0 _ _ _ _ 1 1 (.constant 1) rfl rfl (by decide) (by decide) rfl
      (by decide)⟩

end Piccolo
