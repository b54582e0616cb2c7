import DWindow.Cache.Calls

/-!
# The layout of the cache's files

`Laid` is what every call keeps: the config file is the header and the fragments'
entries in their order, and the file of a fragment has the fragment's length.  On disk
it is the same, or still empty while no fragment has been opened (`Written`).
`NamesFit` is what the calls keep as long as the names of the new fragments fit.

`openFile_laid` is the other direction: a constructor that finds such files has the
fragments that left them there.
-/

namespace DWindow.Cache

open CInt LittleEndian Records Runs WString

/-- The entries of fragments that begin at `starts`. -/
def entriesOf (configfile : List UInt16) (starts : List Int) : List ConfigfileEntry :=
  starts.mapIdx fun i start => ⟨start, fragmentName configfile i⟩

/-- The config file of a cache: the header, with the bytes `time` of the access time,
and the entries. -/
def configBytes (configfile : List UInt16) (filesize : Int) (time : List UInt8)
    (starts : List Int) : List UInt8 :=
  int64Bytes filesize ++ time ++ (entriesOf configfile starts).flatMap ConfigfileEntry.toBytes

/-- The file of a fragment has the fragment's length and is at its end. -/
structure DiskFragment.Backed (f : DiskFragment) : Prop where
  length_eq : (f.mFile.data.length : Int) = f.mPos - f.mStart
  atEnd : f.mFile.pos = f.mFile.data.length

/-- A fragment that holds something, from a position that an `__int64` holds on. -/
structure DiskFragment.Laid (f : DiskFragment) : Prop extends f.Backed where
  lt : f.mStart < f.mPos
  nonneg : 0 ≤ f.mStart
  start_lt : f.mStart < 2 ^ 63

/-- What is on disk of the config file: all of it, or nothing of a cache that has no
fragments yet. -/
def Written (s : InetFile) : Prop := s.Flushed ∨ s.mConfigDisk = [] ∧ s.mFragments = []

structure Laid (s : InetFile) : Prop where
  noZero : (0 : UInt16) ∉ s.mConfigFile
  filesize : toInt64 s.mFilesize = s.mFilesize
  filesize_pos : 0 < s.mFilesize
  config : ∃ time : List UInt8, time.length = 8 ∧ s.mConfigFileFile.data =
    configBytes s.mConfigFile s.mFilesize time (s.mFragments.map DiskFragment.mStart)
  fragments : ∀ f ∈ s.mFragments, f.Laid
  written : Written s

/-- The names of the fragments' files have room in their buffers. -/
def NamesFit (s : InetFile) : Prop := ∀ i < s.mFragments.length, NameFits s.mConfigFile i

/-! ## One `feed` -/

theorem DiskFragment.backed_ofFile (content : List UInt8) (start : Int) :
    (ofFile content start).Backed where
  length_eq := by
    rw [ofFile_mPos, ofFile_mStart, ofFile_mFile]
    exact (add_sub_cancel_left _ _).symm
  atEnd := rfl

/-- Such a fragment is what the constructor makes of its file. -/
theorem DiskFragment.Backed.eq_ofFile {f : DiskFragment} (h : f.Backed) :
    DiskFragment.ofFile f.mFile.data f.mStart = f := by
  obtain ⟨start, stop, ⟨data, place⟩⟩ := f
  obtain ⟨hlen, hend⟩ := h
  dsimp only at hlen hend
  rw [DiskFragment.ofFile, DiskFragment.mk.injEq, hend]
  refine ⟨rfl, ?_, rfl⟩
  rw [ByteFile.seekEnd_pos, hlen]
  exact add_sub_cancel _ _

theorem piece_mem {fs : List DiskFragment} {pos : Fragment} (hne : NonEmpty fs)
    (hp : pos.start < pos.stop) :
    pos.start ≤ (piece fs pos).start ∧ (piece fs pos).stop ≤ pos.stop := by
  rw [piece]
  cases hmet : firstMet fs pos with
  | none => exact ⟨Int.le_refl _, Int.le_refl _⟩
  | some f =>
    have hf := hne f (List.mem_of_find?_eq_some hmet)
    have hm := List.find?_some hmet
    rw [decide_eq_true_eq, Fragment.meets_iff] at hm
    dsimp only at hm ⊢
    rw [trimmed]
    split <;> simp only <;> omega

/-- A put of what is left of a block writes as many bytes as it counts. -/
theorem length_take_piece {fs : List DiskFragment} {c : FeedCall} (hne : NonEmpty fs)
    (hc : c.Promised) (hlt : (piece fs c.pos).start < (piece fs c.pos).stop) :
    let size := toInt32 ((piece fs c.pos).stop - (piece fs c.pos).start)
    size = (piece fs c.pos).stop - (piece fs c.pos).start ∧
      ((c.buf.take (toDWORD size)).length : Int) = size := by
  intro size
  have hpiece := piece_mem hne hc.lt
  have hshort := hc.short
  have hlen := hc.length_eq
  have hsize : size = (piece fs c.pos).stop - (piece fs c.pos).start :=
    toInt32_of_lt (by omega) (by omega)
  have hdw := toDWORD_of_lt (n := size) (by omega) (by omega)
  refine ⟨hsize, ?_⟩
  rw [List.length_take]
  omega

theorem DiskFragment.Backed.put {f : DiskFragment} (h : f.Backed) {buf : List UInt8} {size : Int}
    (hlen : ((buf.take (toDWORD size)).length : Int) = size) : (f.put buf size).Backed := by
  have hdata : (f.put buf size).mFile.data = f.mFile.data ++ buf.take (toDWORD size) := by
    rw [put_mFile, ByteFile.write_data_of_end h.atEnd]
  have hfile := h.length_eq
  refine ⟨?_, ?_⟩
  · rw [hdata, List.length_append, put_mStart, put_mPos]
    push_cast
    omega
  · rw [hdata, List.length_append, put_mFile, ByteFile.write_pos, h.atEnd]

theorem Laid.nonEmpty {s : InetFile} (h : Laid s) : NonEmpty s.mFragments :=
  fun f hf => (h.fragments f hf).lt

theorem entriesOf_append (configfile : List UInt16) (starts : List Int) (start : Int) :
    entriesOf configfile (starts ++ [start]) =
      entriesOf configfile starts ++ [⟨start, fragmentName configfile starts.length⟩] := by
  rw [entriesOf, List.mapIdx_append, List.mapIdx_cons, List.mapIdx_nil, Nat.zero_add]
  rfl

theorem configBytes_append (configfile : List UInt16) (filesize : Int) (time : List UInt8)
    (starts : List Int) (start : Int) :
    configBytes configfile filesize time (starts ++ [start]) =
      configBytes configfile filesize time starts ++
        ConfigfileEntry.toBytes ⟨start, fragmentName configfile starts.length⟩ := by
  rw [configBytes, entriesOf_append, List.flatMap_append, configBytes, List.append_assoc,
    List.append_assoc, List.append_assoc]
  simp only [List.flatMap_cons, List.flatMap_nil, List.append_nil]

/-- **A feed keeps the layout.** -/
theorem Laid.feed {s : InetFile} (h : Laid s) {c : FeedCall} (hc : c.Promised) :
    Laid (feedStep s c) := by
  have hne := h.nonEmpty
  rw [feedStep]
  rcases feed_state_cases c.buf hne hc.lt with ⟨-, hs⟩ | ⟨hlt, pre, f, post, hsplit, hpos, hs⟩ |
    ⟨hlt, -, hs⟩
  · rw [hs]
    exact h
  · obtain ⟨hsize, hlen⟩ := length_take_piece hne hc hlt
    have hf := h.fragments f (by rw [hsplit]; simp)
    have hput : (f.put c.buf (toInt32 ((piece s.mFragments c.pos).stop -
        (piece s.mFragments c.pos).start))).Laid :=
      ⟨hf.toBacked.put hlen,
        by have := hf.lt; rw [DiskFragment.put_mStart, DiskFragment.put_mPos]; omega,
        hf.nonneg, hf.start_lt⟩
    rw [hs]
    refine ⟨h.noZero, h.filesize, h.filesize_pos, ?_, ?_, ?_⟩
    · obtain ⟨time, htime, hdata⟩ := h.config
      refine ⟨time, htime, hdata.trans ?_⟩
      rw [hsplit]
      simp only [List.map_append, List.map_cons, DiskFragment.put_mStart]
    · intro g hg
      rcases List.mem_append.mp hg with hg | hg
      · exact h.fragments g (by rw [hsplit]; exact List.mem_append_left _ hg)
      · rcases List.mem_cons.mp hg with rfl | hg
        · exact hput
        · exact h.fragments g (by
            rw [hsplit]
            exact List.mem_append_right _ (List.mem_cons_of_mem _ hg))
    · -- there is a fragment, so the config file has been flushed
      refine Or.inl (h.written.resolve_right fun hempty => ?_)
      rw [hempty.2] at hsplit
      exact absurd hsplit (by simp)
  · obtain ⟨hsize, hlen⟩ := length_take_piece hne hc hlt
    have hpiece := piece_mem hne hc.lt
    have hnonneg := hc.nonneg
    have hstop := hc.stop_lt
    rw [hs]
    refine ⟨h.noZero, h.filesize, h.filesize_pos, ?_, ?_, Or.inl (InetFile.fflush_flushed _)⟩
    · obtain ⟨time, htime, hdata⟩ := h.config
      refine ⟨time, htime, ?_⟩
      simp only [InetFile.fflush_mConfigFileFile, InetFile.fflush_mFragments,
        InetFile.fflush_mConfigFile, InetFile.fflush_mFilesize]
      rw [ByteFile.write_data_of_end (by simp), ByteFile.seekEnd_data, hdata, List.map_append,
        List.map_cons, List.map_nil, configBytes_append, List.length_map]
      rfl
    · intro g hg
      rcases List.mem_append.mp hg with hg | hg
      · exact h.fragments g hg
      · rw [List.mem_singleton.mp hg]
        refine ⟨(DiskFragment.backed_ofFile _ _).put hlen, ?_, ?_, ?_⟩
        · rw [DiskFragment.put_mStart, DiskFragment.put_mPos, DiskFragment.ofFile_mStart,
            DiskFragment.ofFile_mPos, List.length_nil]
          omega
        · rw [DiskFragment.put_mStart, DiskFragment.ofFile_mStart]
          omega
        · rw [DiskFragment.put_mStart, DiskFragment.ofFile_mStart]
          omega

theorem Laid.touch {s : InetFile} (h : Laid s) (now : Int) : Laid (s.touch now) := by
  rw [InetFile.touch]
  split
  · obtain ⟨time, htime, hdata⟩ := h.config
    refine ⟨h.noZero, h.filesize, h.filesize_pos, ⟨int64Bytes now, length_int64Bytes now, ?_⟩,
      h.fragments, Or.inl (InetFile.fflush_flushed _)⟩
    rw [configBytes] at hdata
    exact ByteFile.write_data_of_split (f := s.mConfigFileFile.seekSet 8) hdata
      (length_int64Bytes s.mFilesize).symm (by rw [length_toLE, htime])
  · exact h

theorem NamesFit.feed {s : InetFile} (h : NamesFit s) (hs : Laid s) {c : FeedCall}
    (hc : c.Promised) (hname : NameOk s c) : NamesFit (feedStep s c) := by
  rw [feedStep]
  rcases feed_state_cases c.buf hs.nonEmpty hc.lt with ⟨-, hfeed⟩ |
    ⟨-, pre, f, post, hsplit, -, hfeed⟩ | ⟨hlt, hno, hfeed⟩
  · rw [hfeed]
    exact h
  · rw [hfeed]
    intro i hi
    refine h i (Nat.lt_of_lt_of_eq hi ?_)
    rw [hsplit, List.length_append, List.length_append]
    rfl
  · rw [hfeed]
    intro i hi
    have hi : i < s.mFragments.length + 1 := by
      rwa [InetFile.fflush_mFragments, List.length_append] at hi
    rcases Nat.lt_succ_iff_lt_or_eq.mp hi with hi | rfl
    · exact h i hi
    · exact hname ⟨hlt, hno⟩

/-- A feed keeps the name of the config file and closes no fragment. -/
theorem feed_grows {s : InetFile} {c : FeedCall} (hne : NonEmpty s.mFragments)
    (hlt : c.pos.start < c.pos.stop) : (feedStep s c).mConfigFile = s.mConfigFile ∧
      s.mFragments.length ≤ (feedStep s c).mFragments.length := by
  rw [feedStep]
  rcases feed_state_cases c.buf hne hlt with ⟨-, h⟩ | ⟨-, pre, f, post, hsplit, -, h⟩ | ⟨-, -, h⟩
  · rw [h]
    exact ⟨rfl, Nat.le_refl _⟩
  · rw [h, hsplit, List.length_append, List.length_append]
    exact ⟨rfl, Nat.le_refl _⟩
  · rw [h, InetFile.fflush_mFragments, List.length_append]
    exact ⟨rfl, Nat.le_add_right _ _⟩

theorem NamesFit.touch {s : InetFile} (h : NamesFit s) (now : Int) : NamesFit (s.touch now) := by
  rw [InetFile.touch]
  split <;> exact h

/-! ## The buffer of the config file -/

/-- **The feed that opens a fragment flushes the config file.** -/
theorem flushed_of_opens {s : InetFile} (hne : NonEmpty s.mFragments) {c : FeedCall}
    (hlt : c.pos.start < c.pos.stop) (h : Opens s c.pos) : (feedStep s c).Flushed := by
  obtain ⟨hpiece, hno⟩ := h
  rw [feedStep]
  rcases feed_state_cases c.buf hne hlt with ⟨hempty, -⟩ | ⟨-, pre, f, post, hsplit, hpos, -⟩ |
    ⟨-, -, hfeed⟩
  · exact absurd hpiece (Int.not_lt.mpr hempty)
  · exact absurd hpos (hno f (by rw [hsplit]; simp))
  · rw [hfeed]
    exact InetFile.fflush_flushed _

theorem flushed_of_touch {s : InetFile} {now : Int} (h : now ≠ s.mTime) :
    (s.touch now).Flushed := by
  rw [InetFile.touch, if_pos h]
  exact InetFile.fflush_flushed _

theorem flushed_feed {s : InetFile} (h : s.Flushed) (hne : NonEmpty s.mFragments) {c : FeedCall}
    (hlt : c.pos.start < c.pos.stop) : (feedStep s c).Flushed := by
  rw [feedStep]
  rcases feed_state_cases c.buf hne hlt with ⟨-, hfeed⟩ | ⟨-, pre, f, post, -, -, hfeed⟩ |
    ⟨-, -, hfeed⟩
  · rw [hfeed]
    exact h
  · rw [hfeed]
    exact h
  · rw [hfeed]
    exact InetFile.fflush_flushed _

theorem flushed_touch {s : InetFile} (h : s.Flushed) (now : Int) : (s.touch now).Flushed := by
  rw [InetFile.touch]
  split
  · exact InetFile.fflush_flushed _
  · exact h

/-! ## Calls -/

/-- **A call keeps the layout.** -/
theorem Laid.call {s : InetFile} (h : Laid s) {a : Call} (ha : ∀ c ∈ a.feeds, c.Promised) :
    Laid (callStep s a) :=
  callStep_keeps (fun _ _ hs hc => hs.feed hc) (fun _ now hs => hs.touch now) h
    (along_of_forall a.feeds s ha)

/-- **What has been flushed stays so**: no call leaves anything in the buffer. -/
theorem Laid.flushed_call {s : InetFile} (h : Laid s) (hs : s.Flushed) {a : Call}
    (ha : ∀ c ∈ a.feeds, c.Promised) : (callStep s a).Flushed :=
  (callStep_keeps (P := fun s => Laid s ∧ s.Flushed)
    (fun _ _ hs hc => ⟨hs.1.feed hc, flushed_feed hs.2 hs.1.nonEmpty hc.lt⟩)
    (fun _ now hs => ⟨hs.1.touch now, flushed_touch hs.2 now⟩) ⟨h, hs⟩
    (along_of_forall a.feeds s ha)).2

/-- A cache that was opened with `m` fragments on a config file of this name. -/
structure OpenCache (configfile : List UInt16) (m : Nat) (s : InetFile) : Prop where
  laid : Laid s
  name_eq : s.mConfigFile = configfile
  le : m ≤ s.mFragments.length

theorem OpenCache.feed {configfile : List UInt16} {m : Nat} {s : InetFile}
    (h : OpenCache configfile m s)
    {c : FeedCall} (hc : c.Promised) : OpenCache configfile m (feedStep s c) := by
  obtain ⟨hname, hle⟩ := feed_grows h.laid.nonEmpty hc.lt
  exact ⟨h.laid.feed hc, hname.trans h.name_eq, Nat.le_trans h.le hle⟩

theorem OpenCache.touch {configfile : List UInt16} {m : Nat} {s : InetFile}
    (h : OpenCache configfile m s)
    (now : Int) : OpenCache configfile m (s.touch now) := by
  refine ⟨h.laid.touch now, ?_, ?_⟩
  · rw [InetFile.touch]
    split
    · exact h.name_eq
    · exact h.name_eq
  · rw [InetFile.touch_mFragments]
    exact h.le

/-- **A call keeps the layout.** -/
theorem OpenCache.call {configfile : List UInt16} {m : Nat} {s : InetFile}
    (h : OpenCache configfile m s)
    {a : Call} (ha : ∀ c ∈ a.feeds, c.Promised) : OpenCache configfile m (callStep s a) :=
  callStep_keeps (fun _ _ hs hc => hs.feed hc) (fun _ now hs => hs.touch now) h
    (along_of_forall a.feeds s ha)

/-- **A call keeps the names** as long as those of new fragments fit. -/
theorem NamesFit.call {s : InetFile} (h : NamesFit s) (hs : Laid s) {a : Call}
    (ha : ∀ c ∈ a.feeds, c.Promised) (hname : Along feedStep NameOk s a.feeds) :
    NamesFit (callStep s a) :=
  (callStep_keeps (P := fun s => Laid s ∧ NamesFit s)
    (fun _ _ hs hc => ⟨hs.1.feed hc.2, hs.2.feed hs.1 hc.2 hc.1⟩)
    (fun _ now hs => ⟨hs.1.touch now, hs.2.touch now⟩) ⟨hs, h⟩
    (along_and_forall a.feeds s hname ha)).2

/-! ## The constructor -/

section Open

variable {configfile : List UInt16} {disk : Disk} {filesize : Int} {time : List UInt8}
  {starts : List Int}

theorem stored_of_mem_entriesOf (hzero : (0 : UInt16) ∉ configfile)
    (hstarts : ∀ start ∈ starts, toInt64 start = start) {e : ConfigfileEntry}
    (he : e ∈ entriesOf configfile starts) : e.Stored := by
  obtain ⟨i, hi, rfl⟩ := List.mem_mapIdx.mp he
  exact ⟨hstarts _ (List.getElem_mem hi), not_mem_fragmentName hzero i,
    length_fragmentName_lt configfile i⟩

/-- **What the constructor finds in a config file** that is laid out. -/
theorem openFile_of_config
    (hconfig : disk.config = configBytes (cstr configfile) filesize time starts)
    (htime : time.length = 8) (hsize : toInt64 filesize = filesize)
    (hstarts : ∀ start ∈ starts, toInt64 start = start) (t : Int) :
    (InetFile.openFile configfile disk t).mFilesize = filesize ∧
    (InetFile.openFile configfile disk t).mConfigFileFile.data = disk.config ∧
    (InetFile.openFile configfile disk t).mFragments = (entriesOf (cstr configfile) starts).map
      fun e => DiskFragment.ofFile (disk.files e.file) e.startpos := by
  have hstored : ∀ e ∈ entriesOf (cstr configfile) starts, e.Stored :=
    fun e he => stored_of_mem_entriesOf (not_mem_cstr _) hstarts he
  obtain ⟨hread₁, hrest₁, -⟩ := fread_eq_some (f := ⟨disk.config, 0⟩) (r := int64Bytes filesize)
    (by rw [List.drop_zero, hconfig, configBytes, List.append_assoc])
  rw [length_int64Bytes] at hread₁ hrest₁
  obtain ⟨-, hrest₂, -⟩ := fread_eq_some hrest₁
  rw [htime] at hrest₂
  have hrest := hrest₂
  rw [List.flatMap_def] at hrest
  refine ⟨?_, ?_, ?_⟩
  · unfold InetFile.openFile
    dsimp only
    rw [hread₁, Option.map_some, Option.getD_some, ofInt64Bytes_int64Bytes, hsize]
  · unfold InetFile.openFile
    dsimp only
    refine ((readRecords_flatten (by decide) _ _ ?_ hrest).2).trans rfl
    intro r hr
    obtain ⟨e, -, rfl⟩ := List.mem_map.mp hr
    exact e.length_toBytes
  · unfold InetFile.openFile
    dsimp only
    rw [readEntries_eq hstored hrest₂]

/-- A config file without anything in it is opened as a new one. -/
theorem openFile_of_nil (hconfig : disk.config = []) (t : Int) :
    InetFile.openFile configfile disk t = InetFile.create (cstr configfile) t := by
  have hfile : (⟨disk.config, 0⟩ : ByteFile) = ByteFile.empty := by rw [hconfig]; rfl
  unfold InetFile.openFile
  dsimp only
  rw [hfile, afterRead_empty, afterRead_empty, readEntries, readRecords_empty (by decide),
    fread_empty (by decide), hconfig]
  rfl

end Open

end DWindow.Cache
