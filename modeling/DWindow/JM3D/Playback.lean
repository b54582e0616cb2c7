import DWindow.JM3D.FrameBuffer

/-!
# Waiting for a frame

`remove` takes the frames in the buffer for the newest ones in a row, and the last number for which
there is a unit one too low.  So it waits for frames that were taken out, and gives the frame that
would fill the last free unit up.

`Inv` says what the buffer holds in any run of the feeder and of calls of `remove`, and
`answers_iff` when the answer is right.
-/

namespace DWindow.JM3D

open CFrameBuffer

variable {α : Type*}

/-- The buffer of a view, and the number of its frames that have been inserted. -/
structure View (α : Type*) where
  leftN : Nat
  buffer : CFrameBuffer α
deriving DecidableEq

inductive Op
  | feed
  | remove (n : Int)

/-- What a turn of `get_frame` ends with. -/
inductive Turn (α : Type*)
  | picture (data : Option α)
  | black
  | retry
deriving DecidableEq

def getFrame (b : CFrameBuffer α) (feederDone : Bool) (n : Int) : Turn α :=
  let got := b.remove n
  if got.1 = -1 ∨ (got.1 = -2 ∧ feederDone) then .black
  else if got.1 = -2 then .retry
  else .picture got.2.1

namespace View

def create (unitCount : Nat) (maxN : Int) (contents : Nat → α) : View α :=
  ⟨0, CFrameBuffer.create unitCount maxN contents⟩

variable (frames : Nat → α)

/-- One turn of the feeder, which has the next frame for `insert`. -/
def onPipeData (v : View α) : View α :=
  match v.buffer.insert v.leftN (frames v.leftN) with
  | none => v
  | some (_, b) => ⟨v.leftN + 1, b⟩

def step (v : View α) : Op → View α
  | .feed => v.onPipeData frames
  | .remove n => { v with buffer := (v.buffer.remove n).2.2 }

/-- The view behind any turns of the feeder and calls of `remove`. -/
def run (v : View α) (ops : List Op) : View α := ops.foldl (step frames) v

/-- **What the buffer holds**: frames that have been inserted, each once, with their data. -/
structure Inv (v : View α) : Prop where
  newest : v.buffer.maxInsertN = v.leftN - 1
  data : ∀ u ∈ v.buffer.theBuffer, u.n ≠ -1 → 0 ≤ u.n ∧ u.n < v.leftN ∧ u.data = frames u.n.toNat
  nodup : v.buffer.held.Nodup
  count : v.buffer.itemCount ≤ v.buffer.held.length

variable {frames}

theorem held_range {v : View α} (h : Inv frames v) {n : Int} (hn : n ∈ v.buffer.held) :
    0 ≤ n ∧ n < v.leftN := by
  obtain ⟨hne, u, hu, rfl⟩ := mem_heldIn.mp hn
  exact ⟨(h.data u hu hne).1, (h.data u hu hne).2.1⟩

/-- There are no more frames in the buffer than have been inserted. -/
theorem length_held_le {v : View α} (h : Inv frames v) : v.buffer.held.length ≤ v.leftN := by
  have hsub : v.buffer.held.toFinset ⊆ Finset.Ico 0 (v.leftN : Int) := fun n hn =>
    Finset.mem_Ico.mpr (held_range h (List.mem_toFinset.mp hn))
  have hcard := Finset.card_le_card hsub
  rwa [List.toFinset_card_of_nodup h.nodup, Int.card_Ico, sub_zero, Int.toNat_natCast] at hcard

variable (frames) in
theorem onPipeData_cases (v : View α) :
    (v.buffer.free = 0 ∧ v.onPipeData frames = v) ∨ ∃ front u back,
      v.buffer.theBuffer = front ++ u :: back ∧ u.n = -1 ∧ v.onPipeData frames =
        ⟨v.leftN + 1, { v.buffer with
          theBuffer := front ++ ⟨v.leftN, frames v.leftN⟩ :: back
          maxInsertN := if (v.leftN : Int) > v.buffer.maxInsertN then v.leftN
            else v.buffer.maxInsertN
          itemCount := v.buffer.itemCount + 1 }⟩ := by
  rcases hins : v.buffer.insert v.leftN (frames v.leftN) with - | ⟨id, b⟩
  · refine .inl ⟨(insert_eq_none ..).mp hins, ?_⟩
    rw [onPipeData, hins]
  · obtain ⟨front, u, back, hl, hu, rfl⟩ := insert_eq_some hins
    refine .inr ⟨front, u, back, hl, hu, ?_⟩
    rw [onPipeData, hins]

variable (frames) in
/-- The feeder waits, or adds its frame to those in the buffer. -/
theorem held_onPipeData (v : View α) :
    (v.buffer.free = 0 ∧ v.onPipeData frames = v) ∨ 0 < v.buffer.free ∧ ∃ l₁ l₂,
      v.buffer.held = l₁ ++ l₂ ∧
      (v.onPipeData frames).buffer.held = l₁ ++ (v.leftN : Int) :: l₂ ∧
      (v.onPipeData frames).leftN = v.leftN + 1 ∧
      (v.onPipeData frames).buffer.itemCount = v.buffer.itemCount + 1 := by
  rcases v.onPipeData_cases frames with hwait | ⟨front, u, back, hl, hu, heq⟩
  · exact .inl hwait
  refine .inr ⟨?_, heldIn front, heldIn back, ?_, ?_, ?_, ?_⟩
  · rw [free, List.countP_pos_iff]
    exact ⟨u, hl ▸ List.mem_append_right _ List.mem_cons_self, beq_iff_eq.mpr hu⟩
  · rw [held, hl, heldIn_append, heldIn_cons_free hu]
  · have hne : (v.leftN : Int) ≠ -1 := by omega
    rw [heq]
    exact (heldIn_append ..).trans (congrArg _ (heldIn_cons_used hne back))
  · rw [heq]
  · rw [heq]

theorem Inv.onPipeData {v : View α} (h : Inv frames v) : Inv frames (v.onPipeData frames) := by
  rcases v.held_onPipeData frames with ⟨-, heq⟩ | ⟨-, l₁, l₂, hheld, hheld', -, hitems⟩
  · rwa [heq]
  refine ⟨?_, ?_, ?_, ?_⟩
  · have hnew := h.newest
    rcases v.onPipeData_cases frames with ⟨-, heq⟩ | ⟨front, u, back, hl, hu, heq⟩
    · rwa [heq]
    · rw [heq]
      grind
  · rcases v.onPipeData_cases frames with ⟨-, heq⟩ | ⟨front, u, back, hl, hu, heq⟩
    · rw [heq]
      exact h.data
    rw [heq]
    intro x hx hxn
    rcases List.mem_append.mp hx with hx | hx
    · grind [h.data x (hl ▸ List.mem_append_left _ hx) hxn]
    · rcases List.mem_cons.mp hx with rfl | hx
      · exact ⟨Int.natCast_nonneg _, by simp, by rw [Int.toNat_natCast]⟩
      · grind [h.data x (hl ▸ List.mem_append_right _ (List.mem_cons_of_mem _ hx)) hxn]
  · rw [hheld', List.nodup_middle, ← hheld, List.nodup_cons]
    exact ⟨fun hmem => absurd (held_range h hmem).2 (lt_irrefl _), h.nodup⟩
  · have hcount := h.count
    rw [hheld, List.length_append] at hcount
    rw [hheld', hitems, List.length_append, List.length_cons]
    omega

theorem held_remove {b : CFrameBuffer α} {n : Int} (h : ∃ u ∈ b.theBuffer, u.n = n) :
    (b.remove n).2.2.itemCount = b.itemCount - 1 ∧ ∃ l₁ l₂,
      b.held = l₁ ++ (if n = -1 then [] else [n]) ++ l₂ ∧ (b.remove n).2.2.held = l₁ ++ l₂ := by
  obtain ⟨front, u, back, hl, rfl, hremove⟩ := remove_of_mem h
  rw [hremove]
  refine ⟨rfl, heldIn front, heldIn back, ?_, ?_⟩
  · rw [held, hl, heldIn_append, List.append_assoc]
    split
    next hu => rw [heldIn_cons_free hu, List.nil_append]
    next hu => rw [heldIn_cons_used hu, List.singleton_append]
  · exact (heldIn_append ..).trans (congrArg _ (heldIn_cons_free rfl _))

theorem Inv.remove {v : View α} (h : Inv frames v) (n : Int) :
    Inv frames { v with buffer := (v.buffer.remove n).2.2 } := by
  by_cases hmem : ∃ u ∈ v.buffer.theBuffer, u.n = n
  swap
  · rw [remove_of_not_mem hmem]
    exact h
  obtain ⟨hitems, l₁, l₂, hheld, hheld'⟩ := held_remove hmem
  refine ⟨?_, ?_, ?_, ?_⟩
  · obtain ⟨front, u, back, -, -, hremove⟩ := remove_of_mem hmem
    rw [hremove]
    exact h.newest
  · obtain ⟨front, u, back, hl, -, hremove⟩ := remove_of_mem hmem
    rw [hremove]
    intro x hx hxn
    rcases List.mem_append.mp hx with hx | hx
    · exact h.data x (hl ▸ List.mem_append_left _ hx) hxn
    · rcases List.mem_cons.mp hx with rfl | hx
      · exact absurd rfl hxn
      · exact h.data x (hl ▸ List.mem_append_right _ (List.mem_cons_of_mem _ hx)) hxn
  · have hnodup := h.nodup
    rw [hheld] at hnodup
    rw [hheld']
    exact hnodup.sublist ((List.sublist_append_left ..).append_right _)
  · have hcount := h.count
    have hone : (if n = -1 then [] else [n]).length ≤ 1 := by
      split <;> simp
    rw [hheld, List.length_append, List.length_append] at hcount
    rw [hheld', hitems, List.length_append]
    omega

theorem Inv.run {v : View α} (h : Inv frames v) (ops : List Op) :
    Inv frames (v.run frames ops) := by
  induction ops generalizing v with
  | nil => exact h
  | cons op ops ih =>
    cases op with
    | feed => exact ih h.onPipeData
    | remove n => exact ih (h.remove n)

/-- The frame is not in yet, and there are free units enough for it to come without a removal. -/
def Coming (v : View α) (n : Int) : Prop :=
  0 ≤ n ∧ n ≤ v.buffer.maxN ∧ v.leftN ≤ n ∧ n < v.leftN + v.buffer.free

/-- All frames in front of `n` have been taken out, and no other ones. -/
def Sequential (v : View α) (n : Int) : Prop :=
  n ≤ v.leftN ∧ ∀ m, m ∈ v.buffer.held ↔ n ≤ m ∧ m < v.leftN

variable (frames) in
/-- **The answer for a frame is right**: its data when it is there, a wait exactly when it is coming
and nothing otherwise; `get_frame` does not wait for a frame that has been taken out, and shows the
next frame in a row. -/
structure Right (v : View α) (n : Int) : Prop where
  found : n ∈ v.buffer.held →
    (v.buffer.remove n).1 = n ∧ (v.buffer.remove n).2.1 = some (frames n.toNat)
  waits : (v.buffer.remove n).1 = -2 ↔ Coming v n
  nothing : n ∉ v.buffer.held → ¬Coming v n → (v.buffer.remove n).1 = -1
  taken : 0 ≤ n → n < v.leftN → n ∉ v.buffer.held →
    ∀ feederDone, getFrame v.buffer feederDone n ≠ .retry
  next : 0 ≤ n → n ≤ v.buffer.maxN → Sequential v n → getFrame v.buffer false n ≠ .black

/-- **When the answer is right**: the frame is in the buffer or none of the film, or it has been
taken out and at least `item_count` frames have come after it (or it is the newest, and `item_count`
is the number of units), or it has not come yet, and is one of those that `remove` waits for exactly
when there is a free unit for it. -/
def Answered (v : View α) (n : Int) : Prop :=
  n ∈ v.buffer.held ∨ n < 0 ∨ v.buffer.maxN < n ∨
    if n < v.leftN then
      v.buffer.itemCount < v.leftN - n ∨
        n = v.leftN - 1 ∧ v.buffer.itemCount = v.buffer.theBuffer.length
    else if n < v.leftN + v.buffer.free then
      n + 1 < v.leftN + v.buffer.theBuffer.length - v.buffer.itemCount ∧
        v.leftN - v.buffer.itemCount ≤ n
    else
      v.leftN + v.buffer.theBuffer.length - v.buffer.itemCount ≤ n + 1 ∨
        n < v.leftN - v.buffer.itemCount

theorem length_step (v : View α) (op : Op) :
    (v.step frames op).buffer.theBuffer.length = v.buffer.theBuffer.length := by
  cases op with
  | feed =>
    rcases v.onPipeData_cases frames with ⟨-, heq⟩ | ⟨front, u, back, hl, -, heq⟩
    · exact congrArg (·.buffer.theBuffer.length) heq
    · rw [step, heq, hl, List.length_append, List.length_append]
      rfl
  | remove n =>
    by_cases hmem : ∃ u ∈ v.buffer.theBuffer, u.n = n
    · obtain ⟨front, u, back, hl, -, hremove⟩ := remove_of_mem hmem
      rw [step, hremove, hl, List.length_append, List.length_append]
      rfl
    · rw [step, remove_of_not_mem hmem]

variable (frames) in
theorem onPipeData_brings (v : View α) :
    (v.onPipeData frames).leftN = v.leftN + min v.buffer.free 1 ∧
    (v.onPipeData frames).buffer.free = v.buffer.free - 1 ∧
    ∀ n : Int, n ∈ (v.onPipeData frames).buffer.held ↔
      n ∈ v.buffer.held ∨ (v.leftN ≤ n ∧ n < v.leftN + min (v.buffer.free : Int) 1) := by
  rcases v.held_onPipeData frames with
    ⟨hfree, heq⟩ | ⟨hfree, l₁, l₂, hheld, hheld', hn, -⟩
  · rw [heq, hfree]
    exact ⟨rfl, rfl, fun n => (or_iff_left (by omega)).symm⟩
  refine ⟨by omega, ?_, fun n => ?_⟩
  · have hlen := length_held v.buffer
    have hlen' := length_held (v.onPipeData frames).buffer
    have hstep : (v.onPipeData frames).buffer.theBuffer.length = v.buffer.theBuffer.length :=
      length_step v .feed
    rw [hheld, List.length_append] at hlen
    rw [hheld', hstep, List.length_append, List.length_cons] at hlen'
    omega
  · rw [hheld, hheld', List.mem_append, List.mem_append, List.mem_cons]
    have hnext : n = v.leftN ↔ v.leftN ≤ n ∧ n < v.leftN + min (v.buffer.free : Int) 1 := by
      omega
    rw [hnext]
    tauto

theorem mem_held_feeds (k : Nat) (v : View α) (n : Int) :
    n ∈ ((onPipeData frames)^[k] v).buffer.held ↔
      n ∈ v.buffer.held ∨ (v.leftN ≤ n ∧ n < v.leftN + min (v.buffer.free : Int) k) := by
  induction k generalizing v with
  | zero =>
    rw [Function.iterate_zero, id_eq]
    exact (or_iff_left (by omega)).symm
  | succ k ih =>
    obtain ⟨hn, hfree, hmem⟩ := v.onPipeData_brings frames
    rw [Function.iterate_succ_apply, ih, hmem, hn, hfree, or_assoc]
    exact or_congr_right (by omega)

/-- A frame of the film is coming exactly when it is not there and the feeder alone will bring
it. -/
theorem coming_iff_feeds {v : View α} (h : Inv frames v) {n : Int} (hmax : n ≤ v.buffer.maxN) :
    Coming v n ↔ n ∉ v.buffer.held ∧ ∃ k, n ∈ ((onPipeData frames)^[k] v).buffer.held := by
  constructor
  · rintro ⟨-, -, hle, hlt⟩
    refine ⟨fun hn => absurd (held_range h hn).2 (not_lt.mpr hle), v.buffer.free, ?_⟩
    rw [mem_held_feeds, min_self]
    exact .inr ⟨hle, hlt⟩
  · rintro ⟨hn, k, hk⟩
    rw [mem_held_feeds] at hk
    obtain ⟨hle, hlt⟩ := hk.resolve_left hn
    exact ⟨by omega, hmax, hle, by omega⟩

/-- Where no call has asked for the number of a free unit, `item_count` counts the frames in the
buffer. -/
theorem itemCount_run {v : View α} (h : v.buffer.itemCount = v.buffer.held.length) {ops : List Op}
    (hops : Op.remove (-1) ∉ ops) :
    (v.run frames ops).buffer.itemCount = (v.run frames ops).buffer.held.length := by
  induction ops generalizing v with
  | nil => exact h
  | cons op ops ih =>
    refine ih ?_ (fun hmem => hops (List.mem_cons_of_mem _ hmem))
    cases op with
    | feed =>
      rcases v.held_onPipeData frames with
        ⟨-, heq⟩ | ⟨-, l₁, l₂, hheld, hheld', -, hitems⟩
      · rwa [step, heq]
      · rw [step, hheld', hitems, h, hheld, List.length_append, List.length_append,
          List.length_cons]
        omega
    | remove n =>
      have hn : n ≠ -1 := fun hn => hops (hn ▸ List.mem_cons_self)
      by_cases hmem : ∃ u ∈ v.buffer.theBuffer, u.n = n
      · obtain ⟨hitems, l₁, l₂, hheld, hheld'⟩ := held_remove hmem
        rw [if_neg hn] at hheld
        rw [step, hheld', hitems, h, hheld, List.length_append, List.length_append,
          List.length_append, List.length_singleton]
        omega
      · rwa [step, remove_of_not_mem hmem]

/-- In a run without such a call, the answer is right for a frame that has been taken out when as
many frames as there are in the buffer have come after it, and for one that has not come when it is
not the one that fills the buffer up. -/
theorem answered_iff {v : View α} (h : Inv frames v)
    (hitems : v.buffer.itemCount = v.buffer.held.length) (n : Int) :
    Answered v n ↔ n ∈ v.buffer.held ∨ n < 0 ∨ v.buffer.maxN < n ∨
      (n < v.leftN ∧ (v.buffer.held.length < v.leftN - n ∨
        n = v.leftN - 1 ∧ v.buffer.free = 0)) ∨
      (v.leftN ≤ n ∧ n + 1 ≠ v.leftN + v.buffer.free) := by
  have hle := length_held_le h
  have hfree := length_held v.buffer
  rw [Answered, hitems]
  refine or_congr_right (or_congr_right (or_congr_right ?_))
  split_ifs <;> omega

/-- Three units: a frame that has been taken out is waited for. -/
theorem taken_waited_for : ¬Right (fun k => k)
    ((create 3 9 fun _ => 0).run (fun k => k) [.feed, .feed, .feed, .remove 1]) 1 := by
  intro h
  refine h.taken (by decide) (by decide) (by decide) false ?_
  decide

end View

end DWindow.JM3D
