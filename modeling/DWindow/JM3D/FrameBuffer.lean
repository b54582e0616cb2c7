import Mathlib.Data.Int.Interval
import Mathlib.Data.List.Nodup
import Mathlib.Order.Interval.Finset.Nat
import Mathlib.Tactic

/-!
# The frame buffer of the JM decoder

The feeder puts the frames of one view, numbered from 0 on, into free units of the buffer, and
`get_frame` takes any of them out.  When a frame is not there, `remove` decides from the newest
number and `itemCount` whether it is worth waiting for.
-/

namespace DWindow.JM3D

variable {α : Type*}

structure BufferUnit (α : Type*) where
  n : Int
  data : α
deriving DecidableEq

structure CFrameBuffer (α : Type*) where
  theBuffer : List (BufferUnit α)
  maxN : Int
  maxInsertN : Int
  itemCount : Int
deriving DecidableEq

namespace CFrameBuffer

def create (unitCount : Nat) (maxN : Int) (contents : Nat → α) : CFrameBuffer α where
  theBuffer := (List.range unitCount).map fun i => ⟨-1, contents i⟩
  maxN := maxN
  maxInsertN := -1
  itemCount := 0

/-- One turn of the loop of `insert`; `none` when no unit is free, so that it sleeps and looks
again. -/
def insert (b : CFrameBuffer α) (n : Int) (buf : α) : Option (Nat × CFrameBuffer α) :=
  (b.theBuffer.findIdx? (·.n == -1)).map fun id =>
    (id, { b with
      theBuffer := b.theBuffer.set id ⟨n, buf⟩
      maxInsertN := if n > b.maxInsertN then n else b.maxInsertN
      itemCount := b.itemCount + 1 })

/-- What `remove` returns, what it copies to `buf`, and the buffer behind it. -/
def remove (b : CFrameBuffer α) (n : Int) : Int × Option α × CFrameBuffer α :=
  match b.theBuffer.findIdx? (·.n == n) with
  | some i =>
    (n, b.theBuffer[i]?.map (·.data), { b with
      theBuffer := b.theBuffer.modify i fun u => { u with n := -1 }
      itemCount := b.itemCount - 1 })
  | none =>
    let maxPossibleN := min (b.maxInsertN + b.theBuffer.length - b.itemCount - 1) b.maxN
    let minPossibleN := b.maxInsertN - b.itemCount + 1
    (if n > maxPossibleN ∨ n < minPossibleN then -1 else -2, none, b)

def heldIn (l : List (BufferUnit α)) : List Int := (l.map (·.n)).filter (· ≠ -1)

def held (b : CFrameBuffer α) : List Int := heldIn b.theBuffer

def free (b : CFrameBuffer α) : Nat := b.theBuffer.countP (·.n == -1)

theorem heldIn_append (l₁ l₂ : List (BufferUnit α)) :
    heldIn (l₁ ++ l₂) = heldIn l₁ ++ heldIn l₂ := by
  rw [heldIn, List.map_append, List.filter_append]
  rfl

theorem heldIn_cons_free {u : BufferUnit α} (h : u.n = -1) (l : List (BufferUnit α)) :
    heldIn (u :: l) = heldIn l := by
  simp [heldIn, h]

theorem heldIn_cons_used {u : BufferUnit α} (h : u.n ≠ -1) (l : List (BufferUnit α)) :
    heldIn (u :: l) = u.n :: heldIn l := by
  simp [heldIn, h]

theorem mem_heldIn {l : List (BufferUnit α)} {n : Int} :
    n ∈ heldIn l ↔ n ≠ -1 ∧ ∃ u ∈ l, u.n = n := by
  simp [heldIn, and_comm]

theorem length_held (b : CFrameBuffer α) : b.held.length + b.free = b.theBuffer.length := by
  rw [held, free, heldIn]
  induction b.theBuffer with
  | nil => rfl
  | cons u l ih =>
    by_cases h : u.n = -1 <;> simp [h] at ih ⊢ <;> omega

theorem exists_of_findIdx? {l : List (BufferUnit α)} {p : BufferUnit α → Bool} {i : Nat}
    (h : l.findIdx? p = some i) : ∃ front u back,
      l = front ++ u :: back ∧ i = front.length ∧ p u = true := by
  obtain ⟨hi, hp, -⟩ := List.findIdx?_eq_some_iff_getElem.mp h
  refine ⟨l.take i, l[i], l.drop (i + 1), ?_, (List.length_take_of_le hi.le).symm, hp⟩
  rw [List.cons_getElem_drop_succ, List.take_append_drop]

theorem modify_length {β : Type*} (front : List β) (x : β) (back : List β) (f : β → β) :
    (front ++ x :: back).modify front.length f = front ++ f x :: back := by
  induction front with
  | nil => rfl
  | cons y front ih => exact congrArg (y :: ·) ih

theorem insert_eq_none {b : CFrameBuffer α} (n : Int) (buf : α) :
    b.insert n buf = none ↔ b.free = 0 := by
  rw [insert, Option.map_eq_none_iff, List.findIdx?_eq_none_iff, free, List.countP_eq_zero]
  simp

theorem insert_eq_some {b b' : CFrameBuffer α} {n : Int} {buf : α} {id : Nat}
    (h : b.insert n buf = some (id, b')) : ∃ front u back,
      b.theBuffer = front ++ u :: back ∧ u.n = -1 ∧ b' = { b with
        theBuffer := front ++ ⟨n, buf⟩ :: back
        maxInsertN := if n > b.maxInsertN then n else b.maxInsertN
        itemCount := b.itemCount + 1 } := by
  obtain ⟨i, hi, heq⟩ := Option.map_eq_some_iff.mp h
  obtain ⟨front, u, back, hl, rfl, hu⟩ := exists_of_findIdx? hi
  obtain ⟨-, rfl⟩ := Prod.mk.inj heq
  refine ⟨front, u, back, hl, beq_iff_eq.mp hu, ?_⟩
  rw [hl, List.set_append_right _ _ le_rfl, Nat.sub_self, List.set_cons_zero]

theorem remove_of_mem {b : CFrameBuffer α} {n : Int} (h : ∃ u ∈ b.theBuffer, u.n = n) :
    ∃ front u back, b.theBuffer = front ++ u :: back ∧ u.n = n ∧
      b.remove n = (n, some u.data, { b with
        theBuffer := front ++ { u with n := -1 } :: back
        itemCount := b.itemCount - 1 }) := by
  obtain ⟨i, hi⟩ : ∃ i, b.theBuffer.findIdx? (·.n == n) = some i := by
    rw [← Option.isSome_iff_exists, List.findIdx?_isSome, List.any_eq_true]
    simpa using h
  obtain ⟨front, u, back, hl, rfl, hu⟩ := exists_of_findIdx? hi
  refine ⟨front, u, back, hl, beq_iff_eq.mp hu, ?_⟩
  have hget : b.theBuffer[front.length]? = some u := by
    rw [hl, List.getElem?_append_right le_rfl, Nat.sub_self]
    rfl
  have hmodify : b.theBuffer.modify front.length (fun u => { u with n := -1 }) =
      front ++ { u with n := -1 } :: back := by
    rw [hl, modify_length]
  rw [remove, hi]
  simp only [hget, hmodify, Option.map_some]

theorem remove_of_not_mem {b : CFrameBuffer α} {n : Int} (h : ¬∃ u ∈ b.theBuffer, u.n = n) :
    b.remove n = (if n > min (b.maxInsertN + b.theBuffer.length - b.itemCount - 1) b.maxN ∨
      n < b.maxInsertN - b.itemCount + 1 then -1 else -2, none, b) := by
  have hi : b.theBuffer.findIdx? (·.n == n) = none := by
    rw [List.findIdx?_eq_none_iff]
    simpa using h
  rw [remove, hi]

end CFrameBuffer

end DWindow.JM3D
