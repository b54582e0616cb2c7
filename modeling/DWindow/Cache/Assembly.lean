import DWindow.Cache.Get

/-!
# `get` leaves no gap

However the fragments lie and however they grow while `get` waits, a request it
answers is filled completely: every byte of the clipped range is one that a
fragment stores for its position, and nothing is written outside the range.  The
loop's invariant is `LoopInv`: each position of the range is in a pending piece
or already delivered, so that the leftovers of a round may overlap what other
fragments hold.

One thing can go wrong.  `disk_fragment::get` casts the length of its read to
`DWORD`, so a fragment that covers `2^32` bytes or more of a request is read
short, and the bytes it does not deliver are not asked for again.  Its callers
ask for an `int` number of bytes and never get there.  `get_gapFree` holds for
every request as long as no fragment a round finds covers so much of it
(`ShortReads`), and `shortReads_of_lt` says that a request below `2^32` bytes is
always such a one.
-/

namespace DWindow.Cache

open CInt

/-- The fragment's file holds a byte for each of its positions. -/
def Complete (f : DiskFragment) : Prop := f.mPos - f.mStart ≤ f.mFile.data.length

/-- `f'` is `f` after some appends. -/
structure Grown (f f' : DiskFragment) : Prop where
  start_eq : f'.mStart = f.mStart
  pos_le : f.mPos ≤ f'.mPos
  data_prefix : f.mFile.data <+: f'.mFile.data

def Grows (s s' : InetFile) : Prop := ∀ f ∈ s.mFragments, ∃ f' ∈ s'.mFragments, Grown f f'

/-- What the rounds of one call may find: the fragments grow, and their files
hold what they cover. -/
structure Environment (s : InetFile) (rounds : List Round) : Prop where
  grows : (s :: rounds.map (·.file)).IsChain Grows
  complete : ∀ r ∈ rounds, ∀ f ∈ r.file.mFragments, Complete f

/-- The buffer holds the byte that some fragment covering `k` stores for it. -/
def Delivered (fs : List DiskFragment) (start : Int) (buf : Buffer) (k : Int) : Prop :=
  ∃ f ∈ fs, k ∈ f.me ∧ ∃ b, f.byteAt k = some b ∧ buf (k - start) = some b

/-- Every byte of `pos` is delivered and nothing else is written. -/
def GapFree (pos : Fragment) (res : InetFile.GetResult) : Prop :=
  (∀ k ∈ pos, Delivered res.file.mFragments pos.start res.buf k) ∧
    ∀ o, ¬ (0 ≤ o ∧ o < pos.stop - pos.start) → res.buf o = none

/-- No fragment that a round finds covers `2^32` bytes or more of `pos`. -/
def ShortReads (pos : Fragment) (rounds : List Round) : Prop :=
  ∀ r ∈ rounds, ∀ f ∈ r.file.mFragments,
    (crossFragment pos f.me).stop - (crossFragment pos f.me).start < 2 ^ 32

theorem ShortReads.tail {pos : Fragment} {r : Round} {rounds : List Round}
    (h : ShortReads pos (r :: rounds)) : ShortReads pos rounds :=
  fun q hq => h q (List.mem_cons_of_mem _ hq)

theorem shortReads_of_lt {pos : Fragment} (h : pos.stop - pos.start < 2 ^ 32)
    (rounds : List Round) : ShortReads pos rounds := by
  intro r _ f _
  simp only [crossFragment]
  omega

/-- A part of `pos` meets no more of another range than `pos` does. -/
theorem crossFragment_length_mono {frag pos me : Fragment} (h1 : pos.start ≤ frag.start)
    (h2 : frag.stop ≤ pos.stop) :
    (crossFragment frag me).stop - (crossFragment frag me).start ≤
      (crossFragment pos me).stop - (crossFragment pos me).start := by
  simp only [crossFragment]
  omega

theorem Environment.tail {s : InetFile} {r : Round} {rounds : List Round}
    (h : Environment s (r :: rounds)) : Grows s r.file ∧ Environment r.file rounds := by
  obtain ⟨hg, hc⟩ := h
  rw [List.map_cons, List.isChain_cons_cons] at hg
  exact ⟨hg.1, hg.2, fun q hq => hc q (List.mem_cons_of_mem _ hq)⟩

theorem Grown.byteAt_eq {f f' : DiskFragment} (h : Grown f f') {k : Int} {b : UInt8}
    (hb : f.byteAt k = some b) : f'.byteAt k = some b := by
  rw [DiskFragment.byteAt] at hb ⊢
  rw [h.start_eq]
  obtain ⟨tail, htail⟩ := h.data_prefix
  rw [← htail, List.getElem?_append_left (List.getElem?_eq_some_iff.mp hb).1, hb]

theorem Delivered.grows {s s' : InetFile} {start : Int} {buf : Buffer} {k : Int}
    (h : Delivered s.mFragments start buf k) (hg : Grows s s') :
    Delivered s'.mFragments start buf k := by
  obtain ⟨f, hf, hk, b, hb, hbuf⟩ := h
  obtain ⟨f', hf', hgrown⟩ := hg f hf
  refine ⟨f', hf', ?_, b, hgrown.byteAt_eq hb, hbuf⟩
  have := hgrown.start_eq
  have := hgrown.pos_le
  rw [Fragment.mem_def] at hk ⊢
  dsimp only at hk ⊢
  omega

/-! ## One round -/

/-- The invariant of the loop on its pending pieces, buffer and fragments. -/
structure LoopInv (pos : Fragment) (pending : List Fragment) (buf : Buffer)
    (fs : List DiskFragment) : Prop where
  pieces : ∀ p ∈ pending, pos.start ≤ p.start ∧ p.stop ≤ pos.stop
  filled : ∀ k ∈ pos, (∃ p ∈ pending, k ∈ p) ∨ Delivered fs pos.start buf k
  within : ∀ o, ¬ (0 ≤ o ∧ o < pos.stop - pos.start) → buf o = none

theorem LoopInv.start (pos : Fragment) (fs : List DiskFragment) :
    LoopInv pos [pos] Buffer.blank fs where
  pieces := by simp
  filled := fun k hk => Or.inl ⟨pos, List.mem_singleton_self pos, hk⟩
  within := fun _ _ => rfl

theorem LoopInv.grows {pos : Fragment} {pending : List Fragment} {buf : Buffer}
    {s s' : InetFile} (h : LoopInv pos pending buf s.mFragments) (hg : Grows s s') :
    LoopInv pos pending buf s'.mFragments where
  pieces := h.pieces
  filled := fun k hk => (h.filled k hk).imp_right (fun hd => hd.grows hg)
  within := h.within

/-- A short read out of a complete fragment is not cut off. -/
theorem get_spec_of_complete {f : DiskFragment} {buf buf' : Buffer} {start : Int}
    {frag : Fragment} {left : List Fragment} (hf : Complete f)
    (hshort : (crossFragment frag f.me).stop - (crossFragment frag f.me).start < 2 ^ 32)
    (h : f.get buf (frag.start - start) frag = some (left, buf')) (o : Int) :
    buf' o = if start + o ∈ frag ∧ start + o ∈ f.me then f.byteAt (start + o) else buf o := by
  obtain ⟨hm, -, hspec⟩ := DiskFragment.get_spec h
  have ho := hspec (start + o)
  rw [show frag.start - start + (start + o - frag.start) = o by omega] at ho
  rw [ho]
  rw [Fragment.meets_iff] at hm
  rw [Complete] at hf
  dsimp only at hm
  have hdw := toDWORD_of_lt
    (n := (crossFragment frag f.me).stop - (crossFragment frag f.me).start)
    (by simp only [crossFragment]; omega) hshort
  refine if_congr ?_ rfl rfl
  rw [← mem_crossFragment, Fragment.mem_def]
  simp only [crossFragment] at hdw ⊢
  omega

theorem LoopInv.round {pos frag : Fragment} {rest left : List Fragment} {buf buf' : Buffer}
    {fs : List DiskFragment} {f : DiskFragment} (hinv : LoopInv pos (frag :: rest) buf fs)
    (hshort : (crossFragment pos f.me).stop - (crossFragment pos f.me).start < 2 ^ 32)
    (hf : f ∈ fs) (hcomplete : Complete f)
    (h : f.get buf (frag.start - pos.start) frag = some (left, buf')) :
    LoopInv pos (left.reverse ++ rest) buf' fs := by
  obtain ⟨hm, rfl, -⟩ := DiskFragment.get_spec h
  obtain ⟨hne, -, hmem⟩ := left_of_meets hm
  have hfrag := hinv.pieces frag (List.mem_cons_self ..)
  have hwritten := get_spec_of_complete hcomplete
    (lt_of_le_of_lt (crossFragment_length_mono hfrag.1 hfrag.2) hshort) h
  have hbyte : ∀ k, k ∈ f.me → ∃ b, f.byteAt k = some b := by
    intro k hk
    rw [Complete] at hcomplete
    rw [Fragment.mem_def] at hk
    dsimp only at hk
    rw [DiskFragment.byteAt]
    exact ⟨_, List.getElem?_eq_getElem (by omega)⟩
  constructor
  · intro p hp
    rcases List.mem_append.mp hp with hp | hp
    · rw [List.mem_reverse] at hp
      -- a leftover is not empty, and its ends are positions of `frag`
      have hp0 := hne p hp
      have h1 := (hmem p.start).mp ⟨p, hp, by rw [Fragment.mem_def]; omega⟩
      have h2 := (hmem (p.stop - 1)).mp ⟨p, hp, by rw [Fragment.mem_def]; omega⟩
      rw [Fragment.mem_def] at h1 h2
      omega
    · exact hinv.pieces p (List.mem_cons_of_mem _ hp)
  · intro k hk
    have hback : pos.start + (k - pos.start) = k := by omega
    by_cases hcross : k ∈ frag ∧ k ∈ f.me
    · obtain ⟨b, hb⟩ := hbyte k hcross.2
      refine Or.inr ⟨f, hf, hcross.2, b, hb, ?_⟩
      rw [hwritten, hback, if_pos hcross, hb]
    · rcases hinv.filled k hk with ⟨p, hp, hkp⟩ | ⟨g, hg, hkg, b, hb, hbuf⟩
      · rcases List.mem_cons.mp hp with rfl | hp
        · obtain ⟨o, ho, hko⟩ := (hmem k).mpr ⟨hkp, fun hkf => hcross ⟨hkp, hkf⟩⟩
          exact Or.inl ⟨o, List.mem_append_left _ (List.mem_reverse.mpr ho), hko⟩
        · exact Or.inl ⟨p, List.mem_append_right _ hp, hkp⟩
      · refine Or.inr ⟨g, hg, hkg, b, hb, ?_⟩
        rw [hwritten, hback, if_neg hcross, hbuf]
  · intro o ho
    have hout : ¬ (pos.start + o ∈ frag ∧ pos.start + o ∈ f.me) := by
      rintro ⟨h1, -⟩
      rw [Fragment.mem_def] at h1
      omega
    rw [hwritten, if_neg hout]
    exact hinv.within o ho

/-! ## The loop -/

theorem getLoop_loopInv {pos : Fragment} :
    ∀ (rounds : List Round) (pending : List Fragment) (buf : Buffer) (cur : InetFile)
      {buf' : Buffer} {last : InetFile}, Environment cur rounds → ShortReads pos rounds →
      LoopInv pos pending buf cur.mFragments →
      InetFile.getLoop pos rounds pending buf cur = some (true, buf', last) →
      LoopInv pos [] buf' last.mFragments := by
  intro rounds
  induction rounds with
  | nil =>
    intro pending buf cur buf' last _ _ hinv h
    cases pending with
    | nil =>
      simp only [InetFile.getLoop, Option.some.injEq, Prod.mk.injEq, true_and] at h
      obtain ⟨rfl, rfl⟩ := h
      exact hinv
    | cons frag rest => exact absurd h (by simp [InetFile.getLoop])
  | cons r rounds ih =>
    intro pending buf cur buf' last henv hshort hinv h
    obtain ⟨hgrows, htail⟩ := henv.tail
    cases pending with
    | nil =>
      simp only [InetFile.getLoop, Option.some.injEq, Prod.mk.injEq, true_and] at h
      obtain ⟨rfl, rfl⟩ := h
      exact hinv
    | cons frag rest =>
      rw [InetFile.getLoop] at h
      split at h
      · rename_i left buf'' hsome
        obtain ⟨f, hf, hget⟩ := List.exists_of_findSome?_eq_some hsome
        exact ih _ buf'' r.file htail hshort.tail ((hinv.grows hgrows).round
          (hshort r (List.mem_cons_self ..) f hf) hf
          (henv.complete r (List.mem_cons_self ..) f hf) hget) h
      · split at h
        · exact absurd h (by simp)
        · exact ih _ buf r.file htail hshort.tail (hinv.grows hgrows) h

theorem get_loopInv {s : InetFile} {rounds : List Round} {now : Int} {pos : Fragment}
    {res : InetFile.GetResult} (henv : Environment s rounds)
    (hshort : ShortReads (InetFile.clip s.mFilesize pos) rounds)
    (h : s.get rounds now pos = some res) (hrtn : 0 ≤ res.rtn) :
    LoopInv (InetFile.clip s.mFilesize pos) [] res.buf res.file.mFragments := by
  rw [InetFile.get] at h
  split at h
  · rw [← Option.some.inj h] at hrtn
    exact absurd hrtn (by simp)
  · dsimp only at h
    split at h
    · rename_i hempty
      rw [← Option.some.inj h]
      refine ⟨by simp, fun k hk => ?_, fun _ _ => rfl⟩
      rw [Fragment.mem_def] at hk
      omega
    · split at h
      · exact absurd h (by simp)
      · rw [← Option.some.inj h] at hrtn
        exact absurd hrtn (by simp)
      · rename_i buf last hloop
        rw [← Option.some.inj h]
        have hinv := getLoop_loopInv rounds _ _ _ henv hshort (LoopInv.start _ _) hloop
        simpa using hinv

theorem LoopInv.gapFree {pos : Fragment} {res : InetFile.GetResult}
    (h : LoopInv pos [] res.buf res.file.mFragments) : GapFree pos res := by
  refine ⟨fun k hk => ?_, h.within⟩
  rcases h.filled k hk with ⟨p, hp, -⟩ | hd
  · exact absurd hp List.not_mem_nil
  · exact hd

end DWindow.Cache
