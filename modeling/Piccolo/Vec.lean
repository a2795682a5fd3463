import Mathlib.Data.List.Basic

/-!
# `Vec` and slice operations on a thread's value stack

A thread's value stack is a Rust `Vec<Value>`. Its operations are modelled on lists, index 0 at
the bottom of the stack. An operation that panics in the source (an index past the end, a bad
range, a `usize` subtraction that underflows with overflow checks on) returns `none`.

The loops of `thread.rs` that copy values one slot at a time are `forRange` over `copyIndex`, so
that overlapping copies behave exactly as the source's sequential writes do.
-/

namespace Piccolo.Vec

variable {α : Type}

/-- `xs[i]`, which panics past the end. -/
def get (xs : List α) (i : Nat) : Option α := xs[i]?

/-- `xs[i] = v`, which panics past the end. -/
def set (xs : List α) (i : Nat) (v : α) : Option (List α) :=
  if i < xs.length then some (xs.set i v) else none

/-- `Vec::resize(n, fill)`: truncate to `n`, or pad with `fill` up to `n`. -/
def resize (xs : List α) (n : Nat) (fill : α) : List α :=
  xs.take n ++ List.replicate (n - xs.length) fill

/-- `Vec::insert(i, v)`. -/
def insert (xs : List α) (i : Nat) (v : α) : Option (List α) :=
  if i ≤ xs.length then some (xs.take i ++ v :: xs.drop i) else none

/-- `Vec::remove(i)`, the removed value dropped. -/
def remove (xs : List α) (i : Nat) : Option (List α) :=
  if i < xs.length then some (xs.take i ++ xs.drop (i + 1)) else none

/-- `Vec::drain(i..)`: what stays, and what was drained. The range is removed even when the
drained iterator is dropped unread. -/
def drain (xs : List α) (i : Nat) : Option (List α × List α) :=
  if i ≤ xs.length then some (xs.take i, xs.drop i) else none

/-- `xs[i..].rotate_left(k)`. -/
def rotateLeftFrom (xs : List α) (i k : Nat) : Option (List α) :=
  if i + k ≤ xs.length then some (xs.take i ++ (xs.drop (i + k) ++ (xs.drop i).take k))
  else none

/-- `xs[i..].rotate_right(k)`. -/
def rotateRightFrom (xs : List α) (i k : Nat) : Option (List α) :=
  if i + k ≤ xs.length then
    some (xs.take i ++ (xs.drop (xs.length - k) ++ (xs.drop i).take (xs.length - k - i)))
  else none

/-- `xs.copy_within(a..b, dest)`. -/
def copyWithin (xs : List α) (a b dest : Nat) : Option (List α) :=
  if a ≤ b ∧ b ≤ xs.length ∧ dest + (b - a) ≤ xs.length then
    some (xs.take dest ++ (xs.drop a).take (b - a) ++ xs.drop (dest + (b - a)))
  else none

/-- `xs.extend_from_within(a..b)`. -/
def extendFromWithin (xs : List α) (a b : Nat) : Option (List α) :=
  if a ≤ b ∧ b ≤ xs.length then some (xs ++ (xs.drop a).take (b - a)) else none

/-- `xs[a..a + ys.len()].copy_from_slice(ys)`. -/
def copyFromSlice (xs : List α) (a : Nat) (ys : List α) : Option (List α) :=
  if a + ys.length ≤ xs.length then some (xs.take a ++ ys ++ xs.drop (a + ys.length)) else none

/-- A `usize` subtraction, which panics when it would underflow. -/
def sub (a b : Nat) : Option Nat := if b ≤ a then some (a - b) else none

/-- `for i in 0..n { body(i) }`, each round of which may panic. -/
def forRange (n : Nat) (body : Nat → List α → Option (List α)) (xs : List α) :
    Option (List α) :=
  match n with
  | 0 => some xs
  | n + 1 => (forRange n body xs).bind (body n)

/-- `xs[dst] = xs[src]`. -/
def copyIndex (xs : List α) (src dst : Nat) : Option (List α) :=
  (get xs src).bind (set xs dst)

/-- `slice::binary_search_by` as the standard library of the time runs it: halve `[left, right)`
around `mid = left + size / 2`, return `Ok(mid)` on the first `Equal`, and `Err(left)` once the
range is empty. The comparator may panic. Each round at least halves the range, so `xs.length`
rounds always empty it; `go` counts them down. -/
def binarySearchBy (xs : List α) (cmp : α → Option Ordering) : Option (Except Nat Nat) :=
  go xs.length 0 xs.length
where
  go : Nat → Nat → Nat → Option (Except Nat Nat)
    | rounds + 1, left, right =>
      if left < right then
        let mid := left + (right - left) / 2
        match xs[mid]? with
        | none => none
        | some x =>
          match cmp x with
          | none => none
          | some .lt => go rounds (mid + 1) right
          | some .gt => go rounds left mid
          | some .eq => some (.ok mid)
      else some (.error left)
    | 0, left, _ => some (.error left)

-- ════════════════════════════════════════════════════════════════════════
-- Lengths
-- ════════════════════════════════════════════════════════════════════════

@[simp] theorem length_resize (xs : List α) (n : Nat) (a : α) : (resize xs n a).length = n := by
  simp only [resize, List.length_append, List.length_take, List.length_replicate]
  omega

theorem set_eq_some {xs ys : List α} {i : Nat} {v : α} :
    set xs i v = some ys ↔ i < xs.length ∧ xs.set i v = ys := by
  unfold set; split <;> simp_all

theorem set_of_lt {xs : List α} {i : Nat} (v : α) (h : i < xs.length) :
    set xs i v = some (xs.set i v) := if_pos h

theorem length_of_set {xs ys : List α} {i : Nat} {v : α} (h : set xs i v = some ys) :
    ys.length = xs.length := by
  obtain ⟨-, rfl⟩ := set_eq_some.1 h
  exact List.length_set _ _ _

theorem sub_eq_some {a b n : Nat} : sub a b = some n ↔ b ≤ a ∧ n = a - b := by
  unfold sub; split_ifs <;> simp [*, eq_comm]

theorem length_of_remove {xs ys : List α} {i : Nat} (h : remove xs i = some ys) :
    ys.length + 1 = xs.length := by
  unfold remove at h
  split_ifs at h with hi
  cases h
  simp only [List.length_append, List.length_take, List.length_drop]
  omega

theorem length_of_extendFromWithin {xs ys : List α} {a b : Nat}
    (h : extendFromWithin xs a b = some ys) : b ≤ xs.length ∧ ys.length = xs.length + (b - a) := by
  unfold extendFromWithin at h
  split_ifs at h with hc
  cases h
  simp only [List.length_append, List.length_take, List.length_drop]
  omega

theorem length_of_copyIndex {xs ys : List α} {src dst : Nat} (h : copyIndex xs src dst = some ys) :
    ys.length = xs.length := by
  unfold copyIndex at h
  cases hg : get xs src with
  | none => simp [hg] at h
  | some v => simp only [hg, Option.some_bind] at h; exact length_of_set h

theorem length_of_drain {xs ys zs : List α} {i : Nat} (h : drain xs i = some (ys, zs)) :
    ys.length = i := by
  unfold drain at h
  split_ifs at h with hi
  cases h
  simp [hi]

theorem length_of_copyWithin {xs ys : List α} {a b dest : Nat}
    (h : copyWithin xs a b dest = some ys) : ys.length = xs.length := by
  unfold copyWithin at h
  split_ifs at h with hc
  cases h
  simp only [List.length_append, List.length_take, List.length_drop]
  omega

/-- `copy_within` panics unless the target range lies inside the vector. -/
theorem le_of_copyWithin {xs ys : List α} {a b dest : Nat}
    (h : copyWithin xs a b dest = some ys) : dest + (b - a) ≤ xs.length := by
  unfold copyWithin at h
  split_ifs at h with hc
  exact hc.2.2

/-- A loop whose every round keeps the length keeps it. -/
theorem length_of_forRange {n : Nat} {body : Nat → List α → Option (List α)} {xs ys : List α}
    (hbody : ∀ i zs zs', body i zs = some zs' → zs'.length = zs.length)
    (h : forRange n body xs = some ys) : ys.length = xs.length := by
  induction n generalizing ys with
  | zero => cases h; rfl
  | succ n ih =>
    simp only [forRange] at h
    cases hn : forRange n body xs with
    | none => simp [hn] at h
    | some zs =>
      simp only [hn, Option.some_bind] at h
      rw [hbody _ _ _ h, ih hn]

theorem getElem?_resize (xs : List α) (n : Nat) (a : α) (j : Nat) :
    (resize xs n a)[j]? = if j < n then (if j < xs.length then xs[j]? else some a) else none := by
  simp only [resize, List.getElem?_append, List.length_take, List.getElem?_take,
    List.getElem?_replicate]
  split_ifs <;> first | rfl | omega

/-- Padding with the fill value before a resize changes nothing. -/
theorem resize_append_replicate (xs : List α) (k n : Nat) (a : α) :
    resize (xs ++ List.replicate k a) n a = resize xs n a := by
  rw [resize, resize, List.take_append_eq_append_take, List.take_replicate, List.append_assoc,
    List.append_replicate_replicate, List.length_append, List.length_replicate]
  congr 2
  omega

theorem resize_of_length_le {xs : List α} {n : Nat} (a : α) (h : n ≤ xs.length) :
    resize xs n a = xs.take n := by
  simp [resize, Nat.sub_eq_zero_of_le h]

/-- A prefix of a resize is the prefix of the vector, padded with the fill value. -/
theorem take_resize_of_le {xs : List α} {k n : Nat} (a : α) (h : k ≤ n) :
    (resize xs n a).take k = xs.take k ++ List.replicate (k - xs.length) a := by
  rw [resize, List.take_append_eq_append_take, List.take_take, List.take_replicate,
    List.length_take, min_eq_left h]
  congr 2
  omega

theorem take_resize {xs : List α} {n k : Nat} (a : α) (h1 : k ≤ n) (h2 : k ≤ xs.length) :
    (resize xs n a).take k = xs.take k := by
  rw [take_resize_of_le _ h1, Nat.sub_eq_zero_of_le h2, List.replicate_zero, List.append_nil]

/-- A window of a resize that lies below both lengths is the same window of the vector. -/
theorem take_drop_resize {xs : List α} {i k n : Nat} (a : α) (h1 : i + k ≤ xs.length)
    (h2 : i + k ≤ n) : ((resize xs n a).drop i).take k = (xs.drop i).take k := by
  rw [resize, List.drop_append_eq_append_drop, List.take_append_of_le_length (by simp; omega),
    List.drop_take, List.take_take, min_eq_left (by omega)]

-- ════════════════════════════════════════════════════════════════════════
-- Copy and fill loops
-- ════════════════════════════════════════════════════════════════════════

/-- `xs` with `k` slots starting at `dst` replaced by the `k` slots starting at `src`. -/
def moveRegion (xs : List α) (src dst k : Nat) : List α :=
  xs.take dst ++ (xs.drop src).take k ++ xs.drop (dst + k)

theorem length_moveRegion {xs : List α} {src dst k : Nat} (hs : src + k ≤ xs.length)
    (hd : dst + k ≤ xs.length) : (moveRegion xs src dst k).length = xs.length := by
  simp only [moveRegion, List.length_append, List.length_take, List.length_drop]
  omega

theorem take_moveRegion {xs : List α} {src dst k : Nat} (hd : dst ≤ xs.length)
    (hs : src + k ≤ xs.length) :
    (moveRegion xs src dst k).take (dst + k) = xs.take dst ++ (xs.drop src).take k := by
  have hAB : (xs.take dst ++ (xs.drop src).take k).length = dst + k := by simp; omega
  rw [moveRegion, List.take_append_eq_append_take, List.take_of_length_le hAB.le, hAB,
    Nat.sub_self, List.take_zero, List.append_nil]

theorem getElem?_moveRegion {xs : List α} {src dst k : Nat} (hs : src + k ≤ xs.length)
    (hd : dst + k ≤ xs.length) (j : Nat) :
    (moveRegion xs src dst k)[j]? =
      if dst ≤ j ∧ j < dst + k then xs[src + (j - dst)]? else xs[j]? := by
  have e1 : min dst xs.length = dst := by omega
  have e2 : min k (xs.length - src) = k := by omega
  simp only [moveRegion, List.append_assoc, List.getElem?_append, List.length_take,
    List.length_drop, e1, e2, List.getElem?_take, List.getElem?_drop]
  split_ifs <;> first | rfl | omega | (congr 1; omega)

/-- The copy loop `for i in 0..k { xs[dst + i] = xs[src + i] }` when no slot is read after it
was written: it moves the `k` slots at `src` to `dst`. -/
theorem copyWithin_eq_moveRegion {xs : List α} {a k dest : Nat} (ha : a + k ≤ xs.length)
    (hd : dest + k ≤ xs.length) : copyWithin xs a (a + k) dest = some (moveRegion xs a dest k) := by
  simp [copyWithin, moveRegion, ha, hd]

theorem forRange_copyIndex {xs : List α} {src dst k : Nat} (hs : src + k ≤ xs.length)
    (hd : dst + k ≤ xs.length) (hsafe : dst ≤ src ∨ src + k ≤ dst) :
    forRange k (fun i ys => copyIndex ys (src + i) (dst + i)) xs =
      some (moveRegion xs src dst k) := by
  induction k with
  | zero => simp [forRange, moveRegion]
  | succ k ih =>
    rw [forRange, ih (by omega) (by omega) (by omega), Option.some_bind]
    obtain ⟨v, hv⟩ : ∃ v, xs[src + k]? = some v :=
      ⟨_, List.getElem?_eq_getElem (show src + k < xs.length by omega)⟩
    -- the slot read in round `k` was not written before it
    have hget : get (moveRegion xs src dst k) (src + k) = some v := by
      rw [get, getElem?_moveRegion (by omega) (by omega), if_neg (by omega), hv]
    have hpre : (xs.take dst ++ (xs.drop src).take k).length = dst + k := by simp; omega
    rw [copyIndex, hget, Option.some_bind, set, length_moveRegion (by omega) (by omega),
      if_pos (show dst + k < xs.length by omega), moveRegion, List.set_append_right _ _ hpre.le,
      hpre, Nat.sub_self, List.drop_eq_getElem_cons (show dst + k < xs.length by omega),
      List.set_cons_zero, moveRegion, List.take_succ, List.getElem?_drop, hv]
    simp only [Option.toList_some, List.append_assoc, List.singleton_append, Nat.add_assoc]

/-- The loop `for i in 0..k { xs[a + i] = v }`. -/
theorem forRange_set {xs : List α} {a k : Nat} {v : α} (h : a + k ≤ xs.length) :
    forRange k (fun i ys => set ys (a + i) v) xs =
      some (xs.take a ++ List.replicate k v ++ xs.drop (a + k)) := by
  induction k with
  | zero => simp [forRange]
  | succ k ih =>
    -- round `k` overwrites the first slot past the `k` already set
    have hpre : (xs.take a ++ List.replicate k v).length = a + k := by simp; omega
    rw [forRange, ih (by omega), Option.some_bind, set, if_pos (by simp; omega),
      List.set_append_right _ _ hpre.le, hpre, Nat.sub_self,
      List.drop_eq_getElem_cons (show a + k < xs.length by omega), List.set_cons_zero,
      List.replicate_succ', List.append_assoc, List.append_assoc, List.append_assoc,
      List.singleton_append, Nat.add_assoc]

/-- The two loops of a `Normal` return: copy the `min r n` values at `start` down to `b`, then
fill the rest of the `r` returned slots with `fill`. Together they put the `n` values, padded or
cut to `r`, right above the kept `b` slots. -/
theorem returnLoops {stack : List α} {b start n r : Nat} (fill : α) (hb : b ≤ start)
    (hn : start + n ≤ stack.length) :
    (forRange (min r n) (fun i st => copyIndex st (start + i) (b + i)) stack).bind
        (fun st => forRange (r - n) (fun i st => set st (b + n + i) fill) (resize st (b + r) fill)) =
      some (stack.take b ++ resize ((stack.drop start).take n) r fill) := by
  have hvs : ((stack.drop start).take n).length = n := by simp; omega
  rw [forRange_copyIndex (by omega) (by omega) (.inl hb), Option.some_bind]
  by_cases hnr : n ≤ r
  · have hM : (moveRegion stack start b n).length = stack.length :=
      length_moveRegion (by omega) (by omega)
    have hR : (resize (moveRegion stack start b n) (b + r) fill).take (b + n) =
        stack.take b ++ (stack.drop start).take n := by
      rw [take_resize _ (by omega) (by omega), take_moveRegion (by omega) hn]
    have hD : (resize (moveRegion stack start b n) (b + r) fill).drop (b + n + (r - n)) = [] :=
      List.drop_eq_nil_of_le (by simp; omega)
    have hV : resize ((stack.drop start).take n) r fill =
        (stack.drop start).take n ++ List.replicate (r - n) fill := by
      rw [resize, List.take_of_length_le (by omega), hvs]
    rw [min_eq_right hnr, forRange_set (by simp; omega), hR, hD, hV]
    simp
  · have hM : b + r ≤ (moveRegion stack start b r).length := by
      rw [length_moveRegion (by omega) (by omega)]; omega
    have hV : resize ((stack.drop start).take n) r fill = (stack.drop start).take r := by
      rw [resize, List.take_take, min_eq_left (by omega), hvs, show r - n = 0 by omega]
      simp
    rw [min_eq_left (by omega), show r - n = 0 by omega, forRange, resize_of_length_le _ hM,
      take_moveRegion (by omega) (by omega), hV]

/-- The loop `for i in 0..c { xs[d + i] = if i < n { xs[a + i] } else { fill } }` with its sources
below its destinations: the `c` slots at `d` get the `n` values at `a`, padded with `fill`, and no
other slot changes. -/
theorem forRange_copyOrFill {xs : List α} {a n d : Nat} (fill : α) (hs : a + n ≤ d) :
    ∀ c, d + c ≤ xs.length → ∃ ys,
      forRange c (fun i st => if i < n then copyIndex st (a + i) (d + i) else set st (d + i) fill)
        xs = some ys ∧ ys.length = xs.length ∧
      ∀ j, ys[j]? = if d ≤ j ∧ j < d + c then (if j - d < n then xs[a + (j - d)]? else some fill)
        else xs[j]?
  | 0, _ => ⟨xs, rfl, rfl, fun j => by rw [if_neg (by omega)]⟩
  | c + 1, hc => by
    obtain ⟨ys, hys, hlen, hget⟩ :=
      forRange_copyOrFill fill hs c (show d + c ≤ xs.length by omega)
    -- round `c` writes at `d + c` the value that slot should end with
    have hround : ∀ v, some v = (if c < n then xs[a + c]? else some fill) → ∃ ys',
        set ys (d + c) v = some ys' ∧ ys'.length = xs.length ∧ ∀ j, ys'[j]? =
          if d ≤ j ∧ j < d + (c + 1) then (if j - d < n then xs[a + (j - d)]? else some fill)
          else xs[j]? := fun v hv => by
      refine ⟨_, if_pos (show d + c < ys.length by omega), by simp [hlen], fun j => ?_⟩
      rw [List.getElem?_set, hget]
      by_cases hj : d + c = j
      · subst hj
        rw [if_pos rfl, if_pos (show d + c < ys.length by omega),
          if_pos (show d ≤ d + c ∧ d + c < d + (c + 1) by omega), Nat.add_sub_cancel_left]
        exact hv
      · rw [if_neg hj]
        by_cases hw : d ≤ j ∧ j < d + c
        · rw [if_pos hw, if_pos (show d ≤ j ∧ j < d + (c + 1) by omega)]
        · rw [if_neg hw, if_neg (show ¬(d ≤ j ∧ j < d + (c + 1)) by omega)]
    rw [forRange, hys, Option.some_bind]
    split_ifs with hcn
    · obtain ⟨v, hv⟩ : ∃ v, xs[a + c]? = some v :=
        ⟨_, List.getElem?_eq_getElem (show a + c < xs.length by omega)⟩
      obtain ⟨ys', h1, h2⟩ := hround v (by rw [if_pos hcn, hv])
      have hsrc : get ys (a + c) = some v := by rw [get, hget, if_neg (by omega), hv]
      exact ⟨ys', by rw [copyIndex, hsrc, Option.some_bind, h1], h2⟩
    · exact hround fill (by rw [if_neg hcn])

-- ════════════════════════════════════════════════════════════════════════
-- Binary search
-- ════════════════════════════════════════════════════════════════════════

section BinarySearch

variable {xs : List α} {key : α → Nat} {t : Nat} {cmp : α → Option Ordering}

/-- What `binary_search_by` returns on keys that strictly increase: `Ok(i)` at the element whose
key is `t`, or `Err(i)` with every key before `i` below `t` and every key from `i` on above. -/
def SearchResult (xs : List α) (key : α → Nat) (t : Nat) : Except Nat Nat → Prop
  | .ok i => ∃ h : i < xs.length, key xs[i] = t
  | .error i => i ≤ xs.length ∧
      ∀ j (h : j < xs.length), (j < i → key xs[j] < t) ∧ (i ≤ j → t < key xs[j])

/-- The search interval `[left, right)` of `binarySearchBy.go`: the keys left of it are below
`t` and the keys right of it above. -/
def SearchInv (xs : List α) (key : α → Nat) (t left right : Nat) : Prop :=
  left ≤ right ∧ right ≤ xs.length ∧
    ∀ j (h : j < xs.length), (j < left → key xs[j] < t) ∧ (right ≤ j → t < key xs[j])

/-- Each round keeps the interval invariant and halves the interval, so `rounds ≥ right - left`
rounds reach a result. -/
theorem searchResult_go (hs : xs.Pairwise fun a b => key a < key b)
    (hc : ∀ x ∈ xs, cmp x = some (compare (key x) t)) :
    ∀ rounds left right, right - left ≤ rounds → SearchInv xs key t left right →
      ∃ r, binarySearchBy.go xs cmp rounds left right = some r ∧ SearchResult xs key t r
  | 0, left, right, hr, ⟨hlr, hlen, hk⟩ =>
    ⟨_, rfl, by omega, fun j h => ⟨(hk j h).1, fun hj => (hk j h).2 (by omega)⟩⟩
  | rounds + 1, left, right, hr, ⟨hlr, hlen, hk⟩ => by
    have hkey := List.pairwise_iff_getElem.1 hs
    unfold binarySearchBy.go
    split_ifs with hlt
    · have hm : left + (right - left) / 2 < xs.length := by omega
      simp only [List.getElem?_eq_getElem hm, hc _ (List.getElem_mem hm)]
      rcases hcmp : compare (key xs[left + (right - left) / 2]) t
      · refine searchResult_go hs hc rounds _ right (by omega) ⟨by omega, hlen, fun j h =>
          ⟨fun hj => ?_, (hk j h).2⟩⟩
        rcases Nat.lt_or_ge j (left + (right - left) / 2) with hj' | hj'
        · exact (hkey j _ h hm hj').trans (Nat.compare_eq_lt.1 hcmp)
        · obtain rfl : j = left + (right - left) / 2 := by omega
          exact Nat.compare_eq_lt.1 hcmp
      · exact ⟨_, rfl, hm, Nat.compare_eq_eq.1 hcmp⟩
      · refine searchResult_go hs hc rounds left _ (by omega) ⟨by omega, by omega, fun j h =>
          ⟨(hk j h).1, fun hj => ?_⟩⟩
        rcases Nat.lt_or_ge (left + (right - left) / 2) j with hj' | hj'
        · exact (Nat.compare_eq_gt.1 hcmp).trans (hkey _ j hm h hj')
        · obtain rfl : j = left + (right - left) / 2 := by omega
          exact Nat.compare_eq_gt.1 hcmp
    · exact ⟨_, rfl, by omega, fun j h => ⟨(hk j h).1, fun hj => (hk j h).2 (by omega)⟩⟩

/-- `binary_search_by` on keys that strictly increase finds the element with the key, or the
position where it belongs: the contract of `slice::binary_search_by`. -/
theorem searchResult_binarySearchBy (hs : xs.Pairwise fun a b => key a < key b)
    (hc : ∀ x ∈ xs, cmp x = some (compare (key x) t)) :
    ∃ r, binarySearchBy xs cmp = some r ∧ SearchResult xs key t r :=
  searchResult_go hs hc _ 0 _ (by omega)
    ⟨Nat.zero_le _, le_rfl, fun _ h => ⟨fun hj => absurd hj (Nat.not_lt_zero _), fun hj => by omega⟩⟩

/-- `Ok(i)` and `Err(i)` alike give the first position whose key is at least `t`. -/
theorem SearchResult.lowerBound (hs : xs.Pairwise fun a b => key a < key b)
    {r : Except Nat Nat} (h : SearchResult xs key t r) {i : Nat} (hi : r = .ok i ∨ r = .error i) :
    i ≤ xs.length ∧ ∀ j (h : j < xs.length), j < i ↔ key xs[j] < t := by
  have hkey := List.pairwise_iff_getElem.1 hs
  obtain rfl | rfl := hi
  · obtain ⟨hi, he⟩ := h
    refine ⟨hi.le, fun j hj => ⟨fun hji => he ▸ hkey j i hj hi hji, fun hk => ?_⟩⟩
    by_contra hji
    rcases Nat.lt_or_ge i j with hij | hij
    · exact absurd (hkey i j hi hj hij) (by omega)
    · obtain rfl : j = i := by omega
      omega
  · obtain ⟨hi, hk⟩ := h
    exact ⟨hi, fun j hj => ⟨(hk j hj).1, fun hlt => by_contra fun hji => by
      have := (hk j hj).2 (by omega); omega⟩⟩

/-- An element with key `t` is the one `Ok` points at, and no `Err` is returned. -/
theorem SearchResult.eq_ok (hs : xs.Pairwise fun a b => key a < key b) {r : Except Nat Nat}
    (h : SearchResult xs key t r) {x : α} (hx : x ∈ xs) (hxt : key x = t) :
    ∃ i, r = .ok i ∧ xs[i]? = some x := by
  obtain ⟨j, hj, rfl⟩ := List.mem_iff_getElem.1 hx
  have hkey := List.pairwise_iff_getElem.1 hs
  match r, h with
  | .ok i, ⟨hi, he⟩ =>
    refine ⟨i, rfl, ?_⟩
    rcases Nat.lt_trichotomy i j with hij | rfl | hij
    · exact absurd (hkey i j hi hj hij) (by omega)
    · exact List.getElem?_eq_getElem hi
    · exact absurd (hkey j i hj hi hij) (by omega)
  | .error i, ⟨_, hk⟩ =>
    rcases Nat.lt_or_ge j i with hji | hji
    · exact absurd ((hk j hj).1 hji) (by omega)
    · exact absurd ((hk j hj).2 hji) (by omega)

/-- A position that splits a list index by index splits it into a prefix and a suffix. -/
theorem forall_take_drop {P : α → Prop} {i : Nat}
    (h : ∀ j (hj : j < xs.length), j < i ↔ P xs[j]) :
    (∀ x ∈ xs.take i, P x) ∧ ∀ x ∈ xs.drop i, ¬ P x := by
  constructor
  · intro x hx
    obtain ⟨j, hj, rfl⟩ := List.mem_iff_getElem.1 hx
    rw [List.length_take] at hj
    rw [List.getElem_take]
    exact (h j _).1 (by omega)
  · intro x hx
    obtain ⟨j, hj, rfl⟩ := List.mem_iff_getElem.1 hx
    rw [List.getElem_drop]
    exact fun hp => absurd ((h _ _).2 hp) (by omega)

/-- `takeWhile` stops where the predicate first fails. -/
theorem takeWhile_eq_take {p : α → Bool} {i : Nat} (h₁ : ∀ x ∈ xs.take i, p x)
    (h₂ : ∀ x ∈ xs.drop i, ¬ p x) : xs.takeWhile p = xs.take i := by
  conv_lhs => rw [← List.take_append_drop i xs]
  rw [List.takeWhile_append_of_pos h₁]
  cases hd : xs.drop i with
  | nil => simp
  | cons y ys => simp [List.takeWhile_cons, h₂ y (by simp [hd])]

end BinarySearch

end Piccolo.Vec
