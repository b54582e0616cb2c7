import DWindow.Cache.Layout

/-!
# What the bytes of a cache are made of

A fragment's file is put together of pieces of the blocks that were fed (`Assembled`), and
whatever `get` delivers stands in the fragments' files, so all of it comes from these blocks
(`exists_mem_of_get`).
-/

namespace DWindow.Cache

open CInt Runs

/-- `data` is put together of pieces of the blocks. -/
def Assembled (blocks : List (List UInt8)) (data : List UInt8) : Prop :=
  ∃ pieces : List (List UInt8), data = pieces.flatten ∧
    ∀ piece ∈ pieces, ∃ block ∈ blocks, piece <:+: block

variable {blocks blocks' : List (List UInt8)}

theorem assembled_nil : Assembled blocks [] := ⟨[], rfl, fun _ h => absurd h List.not_mem_nil⟩

theorem Assembled.mono {data : List UInt8} (h : Assembled blocks data)
    (hsub : ∀ block ∈ blocks, block ∈ blocks') : Assembled blocks' data := by
  obtain ⟨pieces, hdata, hpieces⟩ := h
  refine ⟨pieces, hdata, fun piece hpiece => ?_⟩
  obtain ⟨block, hblock, hinfix⟩ := hpieces piece hpiece
  exact ⟨block, hsub block hblock, hinfix⟩

theorem Assembled.append {data piece block : List UInt8} (h : Assembled blocks data)
    (hblock : block ∈ blocks) (hpiece : piece <:+: block) : Assembled blocks (data ++ piece) := by
  obtain ⟨pieces, rfl, hpieces⟩ := h
  refine ⟨pieces ++ [piece], by rw [List.flatten_append, List.flatten_singleton], fun q hq => ?_⟩
  rcases List.mem_append.mp hq with hq | hq
  · exact hpieces q hq
  · rw [List.mem_singleton.mp hq]
    exact ⟨block, hblock, hpiece⟩

theorem Assembled.exists_mem {data : List UInt8} (h : Assembled blocks data) {b : UInt8}
    (hb : b ∈ data) : ∃ block ∈ blocks, b ∈ block := by
  obtain ⟨pieces, rfl, hpieces⟩ := h
  obtain ⟨piece, hpiece, hb⟩ := List.mem_flatten.mp hb
  obtain ⟨block, hblock, hinfix⟩ := hpieces piece hpiece
  exact ⟨block, hblock, hinfix.subset hb⟩

/-- All fragments are put together of the blocks. -/
def AssembledFrom (blocks : List (List UInt8)) (s : InetFile) : Prop :=
  ∀ f ∈ s.mFragments, Assembled blocks f.mFile.data

theorem Assembled.put {f : DiskFragment} (h : Assembled blocks f.mFile.data) (hf : f.Backed)
    {buf : List UInt8} (hbuf : buf ∈ blocks) (size : Int) :
    Assembled blocks (f.put buf size).mFile.data := by
  rw [DiskFragment.put_mFile, ByteFile.write_data_of_end hf.atEnd]
  exact h.append hbuf (List.take_prefix ..).isInfix

/-- **A feed adds pieces of its block.** -/
theorem AssembledFrom.feed {s : InetFile} (h : AssembledFrom blocks s) (hs : Laid s)
    {c : FeedCall} (hc : c.Promised) (hbuf : c.buf ∈ blocks) :
    AssembledFrom blocks (feedStep s c) := by
  rw [feedStep]
  rcases feed_state_cases c.buf hs.nonEmpty hc.lt with ⟨-, hfeed⟩ |
    ⟨-, pre, f, post, hsplit, -, hfeed⟩ | ⟨-, -, hfeed⟩
  · rw [hfeed]
    exact h
  · rw [hfeed]
    have hmem : f ∈ s.mFragments := by
      rw [hsplit]
      exact List.mem_append_right _ (List.mem_cons_self ..)
    intro g hg
    rcases List.mem_append.mp hg with hg | hg
    · refine h g ?_
      rw [hsplit]
      exact List.mem_append_left _ hg
    · rcases List.mem_cons.mp hg with rfl | hg
      · exact (h f hmem).put (hs.fragments f hmem).toBacked hbuf _
      · refine h g ?_
        rw [hsplit]
        exact List.mem_append_right _ (List.mem_cons_of_mem _ hg)
  · rw [hfeed]
    intro g hg
    rcases List.mem_append.mp hg with hg | hg
    · exact h g hg
    · rw [List.mem_singleton.mp hg]
      exact assembled_nil.put (DiskFragment.backed_ofFile _ _) hbuf _

theorem AssembledFrom.touch {s : InetFile} (h : AssembledFrom blocks s) (now : Int) :
    AssembledFrom blocks (s.touch now) := by
  rw [AssembledFrom, InetFile.touch_mFragments]
  exact h

theorem AssembledFrom.call {s : InetFile} (h : AssembledFrom blocks s) (hs : Laid s) {a : Call}
    (ha : ∀ c ∈ a.feeds, c.Promised ∧ c.buf ∈ blocks) : AssembledFrom blocks (callStep s a) :=
  (callStep_keeps (P := fun s => Laid s ∧ AssembledFrom blocks s)
    (fun _ _ hs hc => ⟨hs.1.feed hc.1, hs.2.feed hs.1 hc.1 hc.2⟩)
    (fun _ now hs => ⟨hs.1.touch now, hs.2.touch now⟩) ⟨hs, h⟩ (along_of_forall a.feeds s ha)).2

theorem callStep_mFilesize {s : InetFile} (hs : Laid s) {a : Call}
    (ha : ∀ c ∈ a.feeds, c.Promised) : (callStep s a).mFilesize = s.mFilesize := by
  refine (callStep_keeps (P := fun t => Laid t ∧ t.mFilesize = s.mFilesize) (fun t c ht hc => ?_)
    (fun t now ht => ?_) ⟨hs, rfl⟩ (along_of_forall a.feeds s ha)).2
  · refine ⟨ht.1.feed hc, ?_⟩
    rw [feedStep, ← ht.2]
    rcases feed_state_cases c.buf ht.1.nonEmpty hc.lt with ⟨-, hfeed⟩ |
      ⟨-, pre, f, post, -, -, hfeed⟩ | ⟨-, -, hfeed⟩
    · rw [hfeed]
    · rw [hfeed]
    · rw [hfeed, InetFile.fflush_mFilesize]
  · refine ⟨ht.1.touch now, ?_⟩
    rw [InetFile.touch, ← ht.2]
    split
    · rfl
    · rfl

/-! ## What is delivered -/

def Buffer.From (good : UInt8 → Prop) (buf : Buffer) : Prop := ∀ o b, buf o = some b → good b

theorem Buffer.From.write {good : UInt8 → Prop} {buf : Buffer} (h : buf.From good) (off : Int)
    {bs : List UInt8} (hbs : ∀ b ∈ bs, good b) : (buf.write off bs).From good := by
  intro o b hb
  rw [Buffer.write] at hb
  split at hb
  · exact hbs b (List.mem_of_getElem? hb)
  · exact h o b hb

theorem from_fragment_get {good : UInt8 → Prop} {f : DiskFragment} {buf buf' : Buffer}
    {base : Int} {pos : Fragment} {left : List Fragment} (hf : ∀ b ∈ f.mFile.data, good b)
    (hbuf : buf.From good) (h : f.get buf base pos = some (left, buf')) : buf'.From good := by
  simp only [DiskFragment.get] at h
  split at h
  · cases h
    refine hbuf.write _ fun b hb => hf b ?_
    rw [ByteFile.readBytes] at hb
    exact List.mem_of_mem_drop (List.mem_of_mem_take hb)
  · cases h

theorem from_getLoop {good : UInt8 → Prop} {pos : Fragment} : ∀ (rounds : List Round)
    (pending : List Fragment) (buf : Buffer) (cur : InetFile) {done : Bool} {buf' : Buffer}
    {last : InetFile}, (∀ r ∈ rounds, ∀ f ∈ r.file.mFragments, ∀ b ∈ f.mFile.data, good b) →
    buf.From good → InetFile.getLoop pos rounds pending buf cur = some (done, buf', last) →
    buf'.From good := by
  intro rounds
  induction rounds with
  | nil =>
    intro pending buf cur done buf' last _ hbuf h
    cases pending with
    | nil =>
      rw [InetFile.getLoop] at h
      cases h
      exact hbuf
    | cons frag rest => cases h
  | cons r rounds ih =>
    intro pending buf cur done buf' last hr hbuf h
    rw [List.forall_mem_cons] at hr
    cases pending with
    | nil =>
      rw [InetFile.getLoop] at h
      cases h
      exact hbuf
    | cons frag rest =>
      rw [InetFile.getLoop] at h
      split at h
      · rename_i left buf'' hsome
        obtain ⟨f, hf, hget⟩ := List.exists_of_findSome?_eq_some hsome
        exact ih _ _ _ hr.2 (from_fragment_get (hr.1 f hf) hbuf hget) h
      · split at h
        · cases h
          exact hbuf
        · exact ih _ _ _ hr.2 hbuf h

/-- **`get` delivers bytes of the blocks.** -/
theorem exists_mem_of_get {s : InetFile} (h : AssembledFrom blocks s) (hs : Laid s)
    {pos : Fragment} {work : List (List FeedCall × Bool)} {now : Int} {r : InetFile.GetResult}
    (ha : ∀ c ∈ (Call.get pos work now).feeds, c.Promised ∧ c.buf ∈ blocks)
    (hget : s.get (Call.rounds s work) now pos = some r) :
    r.buf.From fun b => ∃ block ∈ blocks, b ∈ block := by
  have hrounds : ∀ q ∈ Call.rounds s work, Laid q.file ∧ AssembledFrom blocks q.file :=
    rounds_forall (P := fun s => Laid s ∧ AssembledFrom blocks s)
      (fun _ _ hs hc => ⟨hs.1.feed hc.1, hs.2.feed hs.1 hc.1 hc.2⟩) work s ⟨hs, h⟩
      (along_of_forall _ s ha)
  have hblank : Buffer.blank.From fun b => ∃ block ∈ blocks, b ∈ block := by
    intro o b hb
    cases hb
  have hdata : ∀ q ∈ Call.rounds s work, ∀ f ∈ q.file.mFragments, ∀ b ∈ f.mFile.data,
      ∃ block ∈ blocks, b ∈ block := fun q hq f hf b hb => ((hrounds q hq).2 f hf).exists_mem hb
  rw [InetFile.get] at hget
  split at hget
  · cases hget
    exact hblank
  · dsimp only at hget
    split at hget
    · cases hget
      exact hblank
    · split at hget
      · cases hget
      · next hdone =>
        cases hget
        exact from_getLoop _ _ _ _ hdata hblank hdone
      · next hdone =>
        cases hget
        exact from_getLoop _ _ _ _ hdata hblank hdone

end DWindow.Cache
