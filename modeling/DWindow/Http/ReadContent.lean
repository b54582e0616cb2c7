import DWindow.Http.Response

/-!
# The content of a response

`read_content` calls `recv` until the buffer is full, the connection is closed or there is an
error, and adds every result to its two counters before it looks at it.  An error is `-1`, so
after one the bytes of the buffer are one more than the counters say: `accounts_iff`.
-/

namespace DWindow.Http

open CInt

/-! ## The connection -/

/-- What `recv` finds: some bytes, none on a closed connection, or an error. -/
inductive Arrival
  | bytes (data : List UInt8)
  | error
deriving DecidableEq, Repr

def arrivalBytes (arrivals : List Arrival) : List UInt8 :=
  arrivals.flatMap fun
    | .bytes data => data
    | .error => []

/-- `recv` of at most `n` bytes: what it returns, what it stores, and what is still to come. -/
def recv (n : Nat) : List Arrival → Int × List UInt8 × List Arrival
  | [] => (0, [], [])
  | .error :: arrivals => (-1, [], arrivals)
  | .bytes data :: arrivals =>
    if n < data.length then (n, data.take n, .bytes (data.drop n) :: arrivals)
    else (data.length, data, arrivals)

def beforeError (arrivals : List Arrival) : List Arrival := arrivals.takeWhile (· ≠ .error)

/-- There is no error, or a close or enough bytes come in front of it. -/
def Undisturbed (wanted : Nat) (arrivals : List Arrival) : Prop :=
  .error ∉ arrivals ∨ .bytes [] ∈ beforeError arrivals ∨
    wanted ≤ (arrivalBytes (beforeError arrivals)).length

@[simp] theorem arrivalBytes_nil : arrivalBytes [] = [] := rfl

@[simp] theorem arrivalBytes_error (arrivals : List Arrival) :
    arrivalBytes (.error :: arrivals) = arrivalBytes arrivals := rfl

@[simp] theorem arrivalBytes_bytes (data : List UInt8) (arrivals : List Arrival) :
    arrivalBytes (.bytes data :: arrivals) = data ++ arrivalBytes arrivals := rfl

@[simp] theorem beforeError_error (arrivals : List Arrival) :
    beforeError (.error :: arrivals) = [] := by
  simp [beforeError]

@[simp] theorem beforeError_bytes (data : List UInt8) (arrivals : List Arrival) :
    beforeError (.bytes data :: arrivals) = .bytes data :: beforeError arrivals := by
  simp [beforeError]

/-! ### One call of `recv` -/

theorem undisturbed_nil (wanted : Nat) : Undisturbed wanted [] := Or.inl (by simp)

theorem undisturbed_zero (arrivals : List Arrival) : Undisturbed 0 arrivals :=
  Or.inr (Or.inr (Nat.zero_le _))

theorem not_undisturbed_error {wanted : Nat} (h : 0 < wanted) (arrivals : List Arrival) :
    ¬ Undisturbed wanted (.error :: arrivals) := by
  simp [Undisturbed]
  omega

theorem undisturbed_of_length {wanted : Nat} {data : List UInt8} (h : wanted ≤ data.length)
    (arrivals : List Arrival) : Undisturbed wanted (.bytes data :: arrivals) := by
  refine Or.inr (Or.inr ?_)
  simp only [beforeError_bytes, arrivalBytes_bytes, List.length_append]
  omega

theorem undisturbed_close (wanted : Nat) (arrivals : List Arrival) :
    Undisturbed wanted (.bytes [] :: arrivals) := by
  refine Or.inr (Or.inl ?_)
  simp

theorem undisturbed_bytes {wanted : Nat} {data : List UInt8} (hdata : data ≠ [])
    (h : data.length ≤ wanted) (arrivals : List Arrival) :
    Undisturbed wanted (.bytes data :: arrivals) ↔
      Undisturbed (wanted - data.length) arrivals := by
  have hne : ¬ .bytes [] = Arrival.bytes data := by
    intro heq
    injection heq with heq
    exact hdata heq.symm
  unfold Undisturbed
  simp only [beforeError_bytes, arrivalBytes_bytes, List.length_append, List.mem_cons, hne,
    reduceCtorEq, false_or]
  refine or_congr Iff.rfl (or_congr Iff.rfl ?_)
  omega

/-! ## `read_content` -/

/-- What a call has done so far: its result, the total, the bytes of `buf`, and what is still
to come. -/
structure Call where
  got : Int
  mContentRead : Int
  buf : List UInt8
  arrivals : List Arrival

/-- The state after one `recv`. -/
def Call.recv (size : Int) (s : Call) : Call :=
  let o := Http.recv (size - s.got).toNat s.arrivals
  { got := s.got + o.1, mContentRead := s.mContentRead + o.1, buf := s.buf ++ o.2.1,
    arrivals := o.2.2 }

/-- The loop of `read_content`. -/
def readLoop (mSock : Bool) (size : Int) (s : Call) : Call :=
  if s.got < size ∧ mSock = true then
    if (Http.recv (size - s.got).toNat s.arrivals).1 ≤ 0 then s.recv size
    else readLoop mSock size (s.recv size)
  else s
termination_by (size - s.got).toNat
decreasing_by
  simp only [Call.recv]
  omega

/-- What `read_content` uses of an `httppost`. -/
structure Body where
  mContentLength : Int
  mContentRead : Int
  mSock : Bool
  arrivals : List Arrival

/-- The size of a buffer. -/
abbrev BufSize := Fin (2 ^ 31)

namespace Body

def wanted (p : Body) (size : BufSize) : Int :=
  if p.mContentLength > 0 then toInt32 (min size (p.mContentLength - p.mContentRead)) else size

def readContent (p : Body) (size : BufSize) : Call :=
  let s : Call := { got := 0, mContentRead := p.mContentRead, buf := [], arrivals := p.arrivals }
  if p.wanted size ≤ 0 then s else readLoop p.mSock (p.wanted size) s

def next (p : Body) (size : BufSize) : Body :=
  { p with
    mContentRead := (p.readContent size).mContentRead
    arrivals := (p.readContent size).arrivals }

def after (p : Body) (sizes : List BufSize) : Body := sizes.foldl next p

def delivered (p : Body) : List BufSize → List UInt8
  | [] => []
  | size :: sizes => (p.readContent size).buf ++ (p.next size).delivered sizes

/-- The call meets no error. -/
def Quiet (p : Body) (size : BufSize) : Prop :=
  p.mSock = true → Undisturbed (p.wanted size).toNat p.arrivals

end Body

def Body.start (length : Int) (sock : Bool) (arrivals : List Arrival) : Body :=
  { mContentLength := length, mContentRead := 0, mSock := sock, arrivals := arrivals }

/-- A call with a buffer of some size, behind others, accounts for what it delivers. -/
structure Accounts (p : Body) (before : List BufSize) (size : BufSize) : Prop where
  result : 0 ≤ ((p.after before).readContent size).got ∧
      ((p.after before).readContent size).got ≤ size ∧
      ((p.after before).readContent size).got =
        ((p.after before).readContent size).buf.length ∨
    ((p.after before).readContent size).got < 0 ∧ ((p.after before).readContent size).buf = []
  total : (p.after (before ++ [size])).mContentRead = (p.delivered (before ++ [size])).length
  inOrder : p.delivered (before ++ [size]) ++
    arrivalBytes (p.after (before ++ [size])).arrivals = arrivalBytes p.arrivals
  clipped : 0 < p.mContentLength →
    ((p.delivered (before ++ [size])).length : Int) ≤ p.mContentLength

/-! ## One call -/

/-- From `s` to `s'` the call has stored some bytes, and its counters have gone down by some
number besides. -/
structure Served (size : Int) (s s' : Call) (stored : List UInt8) (lost : Int) : Prop where
  buf : s'.buf = s.buf ++ stored
  rest : stored ++ arrivalBytes s'.arrivals = arrivalBytes s.arrivals
  le : s.got + stored.length ≤ size
  got : s'.got = s.got + stored.length - lost
  read : s'.mContentRead = s.mContentRead + stored.length - lost

theorem Served.refl {size : Int} {s : Call} (h : s.got ≤ size) : Served size s s [] 0 where
  buf := by simp
  rest := by simp
  le := by simpa using h
  got := by simp
  read := by simp

theorem Served.trans {size lost : Int} {s₁ s₂ s₃ : Call} {bytes stored : List UInt8}
    (h₁ : Served size s₁ s₂ bytes 0) (h₂ : Served size s₂ s₃ stored lost) :
    Served size s₁ s₃ (bytes ++ stored) lost where
  buf := by rw [h₂.buf, h₁.buf, List.append_assoc]
  rest := by rw [List.append_assoc, h₂.rest, h₁.rest]
  le := by
    have hgot := h₁.got
    have hle := h₂.le
    rw [List.length_append]
    omega
  got := by
    rw [h₂.got, h₁.got, List.length_append]
    omega
  read := by
    rw [h₂.read, h₁.read, List.length_append]
    omega

/-- **What one `recv` does**: it is the end of the loop, or some bytes are there and the rest
is asked of what follows them. -/
theorem recv_cases {size : Int} {s : Call} (hlt : s.got < size) :
    (∃ lost, Served size s (s.recv size) [] lost ∧
      (Http.recv (size - s.got).toNat s.arrivals).1 ≤ 0 ∧
      (lost = 0 ↔ Undisturbed (size - s.got).toNat s.arrivals)) ∨
    ∃ bytes, Served size s (s.recv size) bytes 0 ∧
      0 < (Http.recv (size - s.got).toNat s.arrivals).1 ∧
      (Undisturbed (size - (s.recv size).got).toNat (s.recv size).arrivals ↔
        Undisturbed (size - s.got).toNat s.arrivals) := by
  obtain ⟨got, read, buf, arrivals⟩ := s
  dsimp only at hlt
  cases arrivals with
  | nil =>
    refine Or.inl ⟨0, ?_, le_rfl, ?_⟩
    · constructor <;> simp [Call.recv, Http.recv]
      exact hlt.le
    · exact iff_of_true rfl (undisturbed_nil _)
  | cons arrival arrivals =>
    cases arrival with
    | error =>
      refine Or.inl ⟨1, ?_, by simp [Http.recv], ?_⟩
      · constructor <;> simp [Call.recv, Http.recv]
        · exact hlt.le
        · rfl
        · rfl
      · exact iff_of_false one_ne_zero (not_undisturbed_error (by dsimp only; omega) _)
    | bytes data =>
      by_cases hshort : (size - got).toNat < data.length
      · refine Or.inr ⟨data.take (size - got).toNat, ?_, ?_, ?_⟩
        · constructor <;> simp [Call.recv, Http.recv, hshort]
          · rw [← List.append_assoc, List.take_append_drop]
          · omega
          · omega
          · omega
        · simp only [Http.recv, if_pos hshort]
          omega
        · refine iff_of_true ?_ (undisturbed_of_length hshort.le _)
          have hzero : (size - (Call.recv size ⟨got, read, buf, .bytes data :: arrivals⟩).got).toNat
              = 0 := by
            simp only [Call.recv, Http.recv, if_pos hshort]
            omega
          rw [hzero]
          exact undisturbed_zero _
      · by_cases hempty : data = []
        · subst hempty
          refine Or.inl ⟨0, ?_, by simp [Http.recv], ?_⟩
          · constructor <;> simp [Call.recv, Http.recv]
            exact hlt.le
          · exact iff_of_true rfl (undisturbed_close _ _)
        · have hpos := List.length_pos_of_ne_nil hempty
          refine Or.inr ⟨data, ?_, ?_, ?_⟩
          · constructor <;> simp [Call.recv, Http.recv, hshort]
            omega
          · simp only [Http.recv, if_neg hshort]
            omega
          · rw [undisturbed_bytes hempty (Nat.not_lt.mp hshort)]
            simp only [Call.recv, Http.recv, if_neg hshort]
            rw [show (size - (got + data.length)).toNat = (size - got).toNat - data.length by omega]

theorem readLoop_served (mSock : Bool) (size : Int) (s : Call) (h : s.got ≤ size) :
    ∃ stored lost, Served size s (readLoop mSock size s) stored lost ∧
      (lost = 0 ↔ (mSock = true → Undisturbed (size - s.got).toNat s.arrivals)) := by
  induction s using readLoop.induct mSock size with
  | case1 s hloop hend =>
    rw [readLoop, if_pos hloop, if_pos hend]
    obtain ⟨lost, hserved, -, hlost⟩ | ⟨bytes, -, hpos, -⟩ := recv_cases hloop.1
    · exact ⟨[], lost, hserved, by simp [hlost, hloop.2]⟩
    · exact absurd hend (not_le.mpr hpos)
  | case2 s hloop hend ih =>
    rw [readLoop, if_pos hloop, if_neg hend]
    obtain ⟨lost, -, hle, -⟩ | ⟨bytes, hserved, -, hiff⟩ := recv_cases hloop.1
    · exact absurd hle hend
    · have hle : (s.recv size).got ≤ size := by
        have hgot := hserved.got
        have hbytes := hserved.le
        omega
      obtain ⟨stored, lost, hrest, hlost⟩ := ih hle
      exact ⟨bytes ++ stored, lost, hserved.trans hrest, by rw [hlost, hiff]⟩
  | case3 s hloop =>
    rw [readLoop, if_neg hloop]
    refine ⟨[], 0, .refl h, iff_of_true rfl fun hsock => ?_⟩
    have hzero : (size - s.got).toNat = 0 := by
      have : ¬ s.got < size := fun hlt => hloop ⟨hlt, hsock⟩
      omega
    rw [hzero]
    exact undisturbed_zero _

namespace Body

/-- **What a call does**, in any state. -/
theorem readContent_served (p : Body) (size : BufSize) :
    ∃ lost : Int,
      (p.readContent size).buf ++ arrivalBytes (p.next size).arrivals = arrivalBytes p.arrivals ∧
      (p.readContent size).buf.length ≤ (p.wanted size).toNat ∧
      (p.readContent size).got = (p.readContent size).buf.length - lost ∧
      (p.next size).mContentRead =
        p.mContentRead + (p.readContent size).buf.length - lost ∧
      (lost = 0 ↔ p.Quiet size) := by
  unfold Quiet next readContent
  dsimp only
  by_cases hwanted : p.wanted size ≤ 0
  · rw [if_pos hwanted]
    refine ⟨0, by simp, by simp, by simp, by simp, iff_of_true rfl fun _ => ?_⟩
    rw [Int.toNat_of_nonpos hwanted]
    exact undisturbed_zero _
  · rw [if_neg hwanted]
    obtain ⟨stored, lost, hserved, hlost⟩ :=
      readLoop_served p.mSock (p.wanted size) ⟨0, p.mContentRead, [], p.arrivals⟩
        (Int.not_le.mp hwanted).le
    have hbuf := hserved.buf
    rw [List.nil_append] at hbuf
    have hle := hserved.le
    have hgot := hserved.got
    dsimp only at hle hgot
    rw [hbuf]
    exact ⟨lost, hserved.rest, by omega, by omega, hserved.read, by simpa using hlost⟩

/-! ## Runs of calls -/

@[simp] theorem next_mContentLength (p : Body) (size : BufSize) :
    (p.next size).mContentLength = p.mContentLength := rfl

theorem after_concat (p : Body) (before : List BufSize) (size : BufSize) :
    p.after (before ++ [size]) = (p.after before).next size := by
  rw [after, List.foldl_concat]
  rfl

@[simp] theorem after_mContentLength (p : Body) (sizes : List BufSize) :
    (p.after sizes).mContentLength = p.mContentLength := by
  induction sizes using List.reverseRecOn with
  | nil => rfl
  | append_singleton sizes size ih => rw [after_concat, next_mContentLength, ih]

theorem delivered_concat (p : Body) (before : List BufSize) (size : BufSize) :
    p.delivered (before ++ [size]) =
      p.delivered before ++ ((p.after before).readContent size).buf := by
  induction before generalizing p with
  | nil => simp [delivered, after]
  | cons first before ih =>
    rw [List.cons_append, delivered, delivered, ih, List.append_assoc]
    rfl

/-- The counters of a run in which no call has met an error. -/
structure Exact (p : Body) (sizes : List BufSize) : Prop where
  total : (p.after sizes).mContentRead = (p.delivered sizes).length
  clipped : 0 < p.mContentLength → ((p.delivered sizes).length : Int) ≤ p.mContentLength

theorem wanted_le {p : Body} {sizes : List BufSize} (h : p.Exact sizes) (size : BufSize) :
    ((p.after sizes).wanted size).toNat ≤ size.val ∧
      (0 < p.mContentLength →
        (p.delivered sizes).length + ((p.after sizes).wanted size).toNat ≤ p.mContentLength) := by
  have hsize := size.isLt
  unfold wanted
  rw [h.total, after_mContentLength]
  by_cases hpos : p.mContentLength > 0
  · have hle := h.clipped hpos
    rw [if_pos hpos, toInt32_of_lt (by omega) (by omega)]
    exact ⟨by omega, fun _ => by omega⟩
  · rw [if_neg hpos]
    exact ⟨by omega, fun h => absurd h hpos⟩

/-- The bytes are delivered in order, with or without an error. -/
theorem delivered_append_arrivalBytes (p : Body) (sizes : List BufSize) :
    p.delivered sizes ++ arrivalBytes (p.after sizes).arrivals = arrivalBytes p.arrivals := by
  induction sizes using List.reverseRecOn with
  | nil => rfl
  | append_singleton sizes size ih =>
    obtain ⟨lost, hrest, -⟩ := (p.after sizes).readContent_served size
    rw [delivered_concat, after_concat, List.append_assoc, hrest, ih]

/-- The step: a quiet call keeps the counters exact, and accounts for its bytes. -/
theorem Exact.accounts {p : Body} {before : List BufSize} (h : p.Exact before) {size : BufSize}
    (hquiet : (p.after before).Quiet size) :
    Accounts p before size ∧ p.Exact (before ++ [size]) := by
  obtain ⟨lost, -, hlength, hgot, hread, hlost⟩ := (p.after before).readContent_served size
  obtain ⟨hsize, hclip⟩ := wanted_le h size
  have htotal := h.total
  rw [hlost.mpr hquiet] at hgot hread
  have hexact : p.Exact (before ++ [size]) := by
    constructor
    · rw [after_concat, hread, htotal, delivered_concat, List.length_append]
      omega
    · intro hpos
      have := hclip hpos
      rw [delivered_concat, List.length_append]
      omega
  refine ⟨⟨Or.inl ⟨by omega, by omega, by omega⟩, hexact.total, ?_, hexact.clipped⟩, hexact⟩
  exact p.delivered_append_arrivalBytes _

theorem exact_of_quiet {length : Int} {sock : Bool} {arrivals : List Arrival}
    {sizes : List BufSize}
    (h : ∀ before size, before ++ [size] <+: sizes →
      ((Body.start length sock arrivals).after before).Quiet size) :
    (Body.start length sock arrivals).Exact sizes := by
  induction sizes using List.reverseRecOn with
  | nil => exact ⟨rfl, fun hpos => hpos.le⟩
  | append_singleton sizes size ih =>
    have hexact := ih fun before last hbefore =>
      h before last (hbefore.trans (List.prefix_append _ _))
    exact (hexact.accounts (h sizes size (List.prefix_refl _))).2

end Body

/-! ## A connection that delivers a stream -/

/-- Some bytes at a time, without an error or a close. -/
def Flows (arrivals : List Arrival) : Prop := ∀ a ∈ arrivals, ∃ data, a = .bytes data ∧ data ≠ []

theorem Flows.undisturbed {arrivals : List Arrival} (h : Flows arrivals) (wanted : Nat) :
    Undisturbed wanted arrivals := by
  refine Or.inl fun hmem => ?_
  obtain ⟨data, heq, -⟩ := h _ hmem
  injection heq

theorem Flows.recv {n : Nat} {arrivals : List Arrival} (h : Flows arrivals) :
    Flows (Http.recv n arrivals).2.2 := by
  cases arrivals with
  | nil => exact h
  | cons arrival arrivals =>
    obtain ⟨data, rfl, hdata⟩ := h arrival List.mem_cons_self
    have hrest : Flows arrivals := fun a ha => h a (List.mem_cons_of_mem _ ha)
    rw [Http.recv]
    split
    · rename_i hlt
      intro a ha
      obtain rfl | ha := List.mem_cons.mp ha
      · exact ⟨_, rfl, List.ne_nil_of_length_pos (by rw [List.length_drop]; omega)⟩
      · exact hrest a ha
    · exact hrest

theorem Flows.of_recv_le {n : Nat} (hn : 0 < n) {arrivals : List Arrival} (h : Flows arrivals)
    (hle : (Http.recv n arrivals).1 ≤ 0) : (Http.recv n arrivals).2.2 = [] := by
  cases arrivals with
  | nil => rfl
  | cons arrival arrivals =>
    obtain ⟨data, rfl, hdata⟩ := h arrival List.mem_cons_self
    have hpos := List.length_pos_of_ne_nil hdata
    rw [Http.recv] at hle
    split at hle
    · dsimp only at hle
      omega
    · dsimp only at hle
      omega

/-- The loop ends with a full buffer or at the end of the stream. -/
theorem readLoop_full (size : Int) (s : Call) (h : Flows s.arrivals) :
    size ≤ (readLoop true size s).got ∨ (readLoop true size s).arrivals = [] := by
  induction s using readLoop.induct true size with
  | case1 s hloop hend =>
    rw [readLoop, if_pos hloop, if_pos hend]
    exact Or.inr (h.of_recv_le (by omega) hend)
  | case2 s hloop hend ih =>
    rw [readLoop, if_pos hloop, if_neg hend]
    exact ih h.recv
  | case3 s hloop =>
    rw [readLoop, if_neg hloop]
    exact Or.inl (not_lt.mp fun hlt => hloop ⟨hlt, rfl⟩)

/-- **On a stream the call is the one of `HttpPost`**, in whatever pieces the stream comes. -/
theorem readContent_stream (p : HttpPost) (size : BufSize) {arrivals : List Arrival}
    (hflows : Flows arrivals) (hstream : arrivalBytes arrivals = p.mSock)
    (hread : 0 < p.mContentLength → p.mContentRead ≤ p.mContentLength) :
    let body : Body := ⟨p.mContentLength, p.mContentRead, true, arrivals⟩
    (body.readContent size).buf = (p.readContent size).1 ∧
      arrivalBytes (body.next size).arrivals = (p.readContent size).2.mSock ∧
      (body.next size).mContentRead = (p.readContent size).2.mContentRead := by
  intro body
  have hwanted : body.wanted size = if p.mContentLength > 0 then
      min (size : Int) (p.mContentLength - p.mContentRead) else size := by
    have hsize := size.isLt
    unfold Body.wanted
    split
    · rename_i hpos
      have := hread hpos
      exact toInt32_of_lt (by dsimp only [body]; omega) (by dsimp only [body]; omega)
    · rfl
  unfold HttpPost.readContent
  dsimp only
  rw [← hwanted]
  by_cases hnone : body.wanted size ≤ 0
  · rw [if_pos hnone]
    simp only [Body.next, Body.readContent, if_pos hnone]
    exact ⟨trivial, hstream, rfl⟩
  · obtain ⟨lost, hrest, hle, hgot, htotal, hlost⟩ := body.readContent_served size
    rw [hlost.mpr fun _ => hflows.undisturbed _] at hgot htotal
    have hfull := readLoop_full (body.wanted size) ⟨0, body.mContentRead, [], arrivals⟩ hflows
    have hcall : body.readContent size =
        readLoop true (body.wanted size) ⟨0, body.mContentRead, [], arrivals⟩ := by
      rw [Body.readContent, if_neg hnone]
    rw [← hcall] at hfull
    rw [if_neg hnone, ← hstream]
    dsimp only
    have hsplit : (body.readContent size).buf =
          (arrivalBytes arrivals).take (body.wanted size).toNat ∧
        arrivalBytes (body.next size).arrivals =
          (arrivalBytes arrivals).drop (body.wanted size).toNat := by
      rw [show arrivalBytes arrivals = _ from hrest.symm]
      obtain hfull | hend := hfull
      · have hlength : (body.wanted size).toNat = (body.readContent size).buf.length := by omega
        rw [hlength, List.take_left, List.drop_left]
        exact ⟨rfl, rfl⟩
      · have hnil : arrivalBytes (body.next size).arrivals = [] := congrArg arrivalBytes hend
        rw [hnil, List.append_nil, List.take_of_length_le hle, List.drop_eq_nil_of_le hle]
        exact ⟨rfl, rfl⟩
    refine ⟨hsplit.1, hsplit.2, ?_⟩
    rw [htotal, hsplit.1, Int.sub_zero]

/-! ## The result -/

/-- **`read_content` accounts for what it delivers**, call after call, exactly when no call
meets an error. -/
theorem accounts_iff (length : Int) (sock : Bool) (arrivals : List Arrival)
    (sizes : List BufSize) :
    (∀ before size, before ++ [size] <+: sizes →
        Accounts (Body.start length sock arrivals) before size) ↔
      ∀ before size, before ++ [size] <+: sizes →
        ((Body.start length sock arrivals).after before).Quiet size := by
  constructor
  · intro h before size hprefix
    -- the total before the call is exact, so the one behind it tells whether a byte is lost
    have hbefore : ((Body.start length sock arrivals).after before).mContentRead =
        ((Body.start length sock arrivals).delivered before).length := by
      cases before using List.reverseRecOn with
      | nil => rfl
      | append_singleton before last =>
        exact (h before last ((List.prefix_append _ _).trans hprefix)).total
    obtain ⟨lost, -, -, -, hread, hlost⟩ :=
      ((Body.start length sock arrivals).after before).readContent_served size
    refine hlost.mp ?_
    have htotal := (h before size hprefix).total
    rw [Body.after_concat, hread, Body.delivered_concat, List.length_append, hbefore] at htotal
    omega
  · intro h before size hprefix
    have hexact := Body.exact_of_quiet fun first last hfirst =>
      h first last (hfirst.trans ((List.prefix_append before [size]).trans hprefix))
    exact (hexact.accounts (h before size hprefix)).1

/-- **A call that meets an error** behind two bytes returns one. -/
theorem error_is_counted :
    ¬ ∀ before size, before ++ [size] <+: [(⟨3, by decide⟩ : BufSize)] →
      Accounts (Body.start 0 true [.bytes [1, 2], .error]) before size := by
  intro h
  have hresult := (h [] ⟨3, by decide⟩ (List.prefix_refl _)).result
  simp [Body.after, Body.readContent, Body.wanted, Body.start, readLoop, Call.recv, recv]
    at hresult

end DWindow.Http
