import Piccolo.Value

/-!
# Stashing values outside the arena

`stash.rs`: a value leaves the arena by rooting each of its handles in a `DynamicRootSet`, which
gives a `StashedValue` with no lifetime, and comes back by fetching its roots from the set.

## Main definitions

- `DynamicRootSet` — the handles rooted so far, in the order they were stashed
- `Value.stash`, `Function.stash` — `Stashable for Value` and `Stashable for Function`
- `StashedValue.fetch`, `StashedFunction.fetch` — `Fetchable for StashedValue` and
  `Fetchable for StashedFunction`
- `StashedValue.toBool`, `StashedValue.asPrimitive`

## Design notes

A root set only grows: `stash` appends a handle and returns the root that points at it, and
`fetch` reads it back, panicking on a root the set does not hold. In the source each stashed kind
is a newtype over a root typed by its kind, so the fetch of one kind never meets a handle of
another; here the roots of all kinds share the set, and `fetchAs` reads a root as one kind,
returning `none` on any other. Executors are stashed the same way but no `Value` holds one, so
they are left out.
-/

namespace Piccolo

/-- A handle a `DynamicRoot` keeps alive. -/
inductive Rooted where
  | string (s : Nat)
  | table (t : Nat)
  | closure (c : Closure)
  | callback (cb : CallbackId)
  | thread (t : ThreadId)
  | userData (u : Nat)
deriving DecidableEq, Repr

/-- A `DynamicRootSet`: the handles stashed in it, in stash order. -/
structure DynamicRootSet where
  roots : List Rooted
deriving DecidableEq, Repr

/-- A `DynamicRoot`: the position of its handle in the set. -/
structure DynamicRoot where
  index : Nat
deriving DecidableEq, Repr

namespace DynamicRootSet

/-- `DynamicRootSet::stash`: root a handle. -/
def stash (set : DynamicRootSet) (h : Rooted) : DynamicRoot × DynamicRootSet :=
  (⟨set.roots.length⟩, ⟨set.roots ++ [h]⟩)

/-- `DynamicRootSet::fetch`, which panics on a root the set does not hold. -/
def fetch (set : DynamicRootSet) (root : DynamicRoot) : Option Rooted :=
  set.roots[root.index]?

/-- A stashed handle is fetched back from the set, however many handles are stashed after it. -/
theorem fetch_stash_append (set : DynamicRootSet) (h : Rooted) (later : List Rooted) :
    fetch ⟨(set.stash h).2.roots ++ later⟩ (set.stash h).1 = some h := by
  simp only [stash, fetch, List.append_assoc, List.singleton_append,
    List.getElem?_append_right (Nat.le_refl _), Nat.sub_self, List.getElem?_cons_zero]

end DynamicRootSet

/-- `fetch_type!`: read a root back as a handle of the kind `kind` selects. -/
def fetchAs {α : Type} (kind : Rooted → Option α) (set : DynamicRootSet) (root : DynamicRoot) :
    Option α :=
  (set.fetch root).bind kind

namespace Rooted

def string? : Rooted → Option Nat
  | string s => some s
  | _ => none

def table? : Rooted → Option Nat
  | table t => some t
  | _ => none

def closure? : Rooted → Option Closure
  | closure c => some c
  | _ => none

def callback? : Rooted → Option CallbackId
  | callback cb => some cb
  | _ => none

def thread? : Rooted → Option ThreadId
  | thread t => some t
  | _ => none

def userData? : Rooted → Option Nat
  | userData u => some u
  | _ => none

end Rooted

/-- A handle stashed under its own kind is fetched back as itself. -/
theorem fetchAs_stash_append {α : Type} {kind : Rooted → Option α} {h : Rooted} {x : α}
    (hk : kind h = some x) (set : DynamicRootSet) (later : List Rooted) :
    fetchAs kind ⟨(set.stash h).2.roots ++ later⟩ (set.stash h).1 = some x := by
  rw [fetchAs, DynamicRootSet.fetch_stash_append, Option.some_bind, hk]

-- ════════════════════════════════════════════════════════════════════════
-- Stashed values
-- ════════════════════════════════════════════════════════════════════════

/-- `StashedFunction`, each variant over the root of its `StashedClosure` or `StashedCallback`. -/
inductive StashedFunction where
  | closure (c : DynamicRoot)
  | callback (cb : DynamicRoot)
deriving DecidableEq, Repr

/-- `StashedValue`, a handle variant over the root of its stashed newtype. -/
inductive StashedValue where
  | nil
  | boolean (b : Bool)
  | integer (i : BitVec 64)
  | number (n : UInt64)
  | string (s : DynamicRoot)
  | table (t : DynamicRoot)
  | function (f : StashedFunction)
  | thread (t : DynamicRoot)
  | userData (u : DynamicRoot)
deriving DecidableEq, Repr

/-- `Stashable for Function`. -/
def Function.stash (set : DynamicRootSet) : Function → StashedFunction × DynamicRootSet
  | .closure c => let (r, set) := set.stash (.closure c); (.closure r, set)
  | .callback cb => let (r, set) := set.stash (.callback cb); (.callback r, set)

/-- `Fetchable for StashedFunction`. -/
def StashedFunction.fetch (set : DynamicRootSet) : StashedFunction → Option Function
  | .closure r => (fetchAs Rooted.closure? set r).map .closure
  | .callback r => (fetchAs Rooted.callback? set r).map .callback

/-- `Stashable for Value`: primitives are copied, handles rooted. -/
def Value.stash (set : DynamicRootSet) : Value → StashedValue × DynamicRootSet
  | .nil => (.nil, set)
  | .boolean b => (.boolean b, set)
  | .integer i => (.integer i, set)
  | .number n => (.number n, set)
  | .string s => let (r, set) := set.stash (.string s); (.string r, set)
  | .table t => let (r, set) := set.stash (.table t); (.table r, set)
  | .function f => let (sf, set) := f.stash set; (.function sf, set)
  | .thread t => let (r, set) := set.stash (.thread t); (.thread r, set)
  | .userData u => let (r, set) := set.stash (.userData u); (.userData r, set)

/-- `Fetchable for StashedValue`. -/
def StashedValue.fetch (set : DynamicRootSet) : StashedValue → Option Value
  | .nil => some .nil
  | .boolean b => some (.boolean b)
  | .integer i => some (.integer i)
  | .number n => some (.number n)
  | .string r => (fetchAs Rooted.string? set r).map .string
  | .table r => (fetchAs Rooted.table? set r).map .table
  | .function f => (f.fetch set).map .function
  | .thread r => (fetchAs Rooted.thread? set r).map .thread
  | .userData r => (fetchAs Rooted.userData? set r).map .userData

/-- `StashedValue::to_bool`: only `Nil` and `false` are false. -/
def StashedValue.toBool : StashedValue → Bool
  | .nil => false
  | .boolean false => false
  | _ => true

/-- `StashedValue::as_primitive`: the value itself when it holds no handle. -/
def StashedValue.asPrimitive : StashedValue → Option Value
  | .nil => some .nil
  | .boolean b => some (.boolean b)
  | .integer i => some (.integer i)
  | .number n => some (.number n)
  | _ => none

-- ════════════════════════════════════════════════════════════════════════
-- Round trips
-- ════════════════════════════════════════════════════════════════════════

/-- A stashed function is fetched back as itself, from its set or any set stashing more after it. -/
theorem Function.fetch_stash (set : DynamicRootSet) (f : Function) (later : List Rooted) :
    (f.stash set).1.fetch ⟨(f.stash set).2.roots ++ later⟩ = some f := by
  cases f <;> simp only [Function.stash, StashedFunction.fetch,
    fetchAs_stash_append (show Rooted.closure? (.closure _) = some _ from rfl),
    fetchAs_stash_append (show Rooted.callback? (.callback _) = some _ from rfl), Option.map_some']

/-- A stashed value is fetched back as itself, the same variant over the same handle or bits, from
its set or any set stashing more after it. -/
theorem Value.fetch_stash (set : DynamicRootSet) (v : Value) (later : List Rooted) :
    (v.stash set).1.fetch ⟨(v.stash set).2.roots ++ later⟩ = some v := by
  cases v <;> simp only [Value.stash, StashedValue.fetch, Function.fetch_stash, Option.map_some',
    fetchAs_stash_append (show Rooted.string? (.string _) = some _ from rfl),
    fetchAs_stash_append (show Rooted.table? (.table _) = some _ from rfl),
    fetchAs_stash_append (show Rooted.thread? (.thread _) = some _ from rfl),
    fetchAs_stash_append (show Rooted.userData? (.userData _) = some _ from rfl)]

/-- Stash round trip: every value and every function comes back from its stash as itself, however
many handles are stashed after it; a stashed value is a primitive exactly when the value holds no
handle, and is false exactly when the value is `Nil` or `false`. -/
theorem stash_round_trip :
    (∀ (set : DynamicRootSet) (v : Value) (later : List Rooted),
      (v.stash set).1.fetch ⟨(v.stash set).2.roots ++ later⟩ = some v) ∧
    (∀ (set : DynamicRootSet) (f : Function) (later : List Rooted),
      (f.stash set).1.fetch ⟨(f.stash set).2.roots ++ later⟩ = some f) ∧
    (∀ (set : DynamicRootSet) (v : Value), (v.stash set).1.asPrimitive = some v ↔
      v = .nil ∨ (∃ b, v = .boolean b) ∨ (∃ i, v = .integer i) ∨ ∃ n, v = .number n) ∧
    (∀ (set : DynamicRootSet) (v : Value), (v.stash set).1.asPrimitive = none ↔
      (∃ s, v = .string s) ∨ (∃ t, v = .table t) ∨ (∃ f, v = .function f) ∨
        (∃ t, v = .thread t) ∨ ∃ u, v = .userData u) ∧
    ∀ (set : DynamicRootSet) (v : Value),
      (v.stash set).1.toBool = false ↔ v = .nil ∨ v = .boolean false := by
  refine ⟨Value.fetch_stash, Function.fetch_stash, fun set v => ?_, fun set v => ?_,
    fun set v => ?_⟩ <;>
  rcases v with _ | ⟨_ | _⟩ | _ | _ | _ | _ | ⟨_ | _⟩ | _ | _ <;>
  simp [Value.stash, Function.stash, DynamicRootSet.stash, StashedValue.asPrimitive,
    StashedValue.toBool]

end Piccolo
