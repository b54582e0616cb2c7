import DWindow.Cache.Layout

/-!
# The cache opened again

A session opens the config file, calls `setURL` and, when that returns 0, goes on with
calls of `feed` and `get`.  It leaves its files on disk for the next one, but for what
is still in the buffer of the config file's `FILE`: nothing closes that, and only the end
of the process writes it out.  Apart from that all writes succeed, and the file of a new
fragment does not exist before.

`reload_same` is the result: after any number of sessions, the next constructor finds
the file size and the fragments as they were, and all names are different.  It needs
the names of the new fragments to fit: `swprintf` cuts a name off at `MAX_PATH`, and
then the names of two fragments are the same (`reload_names_same`).  And it needs the
config file to have been flushed when it is opened again: the header that `setURL` has
written is not on disk before the first `fflush` (`reload_of_buffered`).
-/

namespace DWindow.Cache

open Records Runs WString

/-- One session: the time and the answers of the server that it finds, its calls, and
whether the process ends with it. -/
structure Session where
  time : Int
  responsecode : Int
  contentLength : Int
  calls : List Call
  exits : Bool

/-- The disk, and what the sessions of this process have left in the buffers of their
config files, in their order. -/
structure Process where
  disk : Disk
  buffers : List (List UInt8)

def recordedNames (config : List UInt8) : List (List UInt16) :=
  (readEntries ⟨config, 16⟩).map ConfigfileEntry.file

/-- The names of the fragments' files: those found in the config file, and behind them
the ones that `feed` has made up. -/
def fileNames (loaded : List (List UInt16)) (s : InetFile) : List (List UInt16) :=
  loaded ++ (List.range' loaded.length (s.mFragments.length - loaded.length)).map
    (fragmentName s.mConfigFile)

def Disk.left (disk : Disk) (s : InetFile) : Disk where
  config := s.mConfigDisk
  files name := (((fileNames (recordedNames disk.config) s).zip
    (s.mFragments.map fun f => f.mFile.data)).lookup name).getD (disk.files name)

/-- What is left in the buffer of the config file: the header, the only thing that is
written without a `fflush`. -/
def InetFile.buffered (s : InetFile) : List (List UInt8) :=
  if s.Flushed then [] else [s.mConfigFileFile.data.take 16]

/-- The process ends: the buffered headers are written to the front of the file. -/
def Process.exit (p : Process) : Process where
  disk :=
    { p.disk with
      config := p.buffers.foldl (fun config header => ((ByteFile.mk config 0).write header).data)
        p.disk.config }
  buffers := []

namespace Session

/-- The cache after `setURL`, and what that returned. -/
def opened (configfile : List UInt16) (disk : Disk) (x : Session) : InetFile × Int :=
  (InetFile.openFile configfile disk x.time).setURL x.responsecode x.contentLength

def last (configfile : List UInt16) (disk : Disk) (x : Session) : InetFile :=
  if (x.opened configfile disk).2 = 0 then run callStep (x.opened configfile disk).1 x.calls
  else (x.opened configfile disk).1

def step (configfile : List UInt16) (p : Process) (x : Session) : Process :=
  let s := x.last configfile p.disk
  let left : Process := ⟨p.disk.left s, p.buffers ++ s.buffered⟩
  if x.exits then left.exit else left

def Promised (x : Session) : Prop := ∀ a ∈ x.calls, ∀ c ∈ a.feeds, c.Promised

def NamesOk (configfile : List UInt16) (disk : Disk) (x : Session) : Prop :=
  Along callStep (fun s a => Along feedStep NameOk s a.feeds) (x.opened configfile disk).1 x.calls

/-- Nothing of the config file is in a buffer when it is opened again. -/
def Saved (configfile : List UInt16) (disk : Disk) (x : Session) : Prop :=
  x.exits = true ∨ (x.last configfile disk).Flushed

end Session

/-- A constructor that finds the disk as the session leaves it has the session's file
size and fragments, and the names in the config file are different. -/
structure ReloadsSame (configfile : List UInt16) (p : Process) (x : Session) (time : Int) :
    Prop where
  filesize : (InetFile.openFile configfile (x.step configfile p).disk time).mFilesize =
    (x.last configfile p.disk).mFilesize
  fragments : (InetFile.openFile configfile (x.step configfile p).disk time).mFragments.map
    DiskFragment.me = (x.last configfile p.disk).mFragments.map DiskFragment.me
  names : (recordedNames (x.step configfile p).disk.config).Nodup

/-! ## The disk between two sessions -/

/-- The files of the cache `s` are on disk. -/
structure Keeps (configfile : List UInt16) (s : InetFile) (disk : Disk) : Prop where
  laid : Laid s
  names : NamesFit s
  name_eq : s.mConfigFile = cstr configfile
  config : disk.config = s.mConfigDisk
  files : ∀ (i : Nat) (h : i < s.mFragments.length),
    disk.files (fragmentName s.mConfigFile i) = s.mFragments[i].mFile.data

theorem entriesOf_map_file (configfile : List UInt16) (starts : List Int) :
    (entriesOf configfile starts).map ConfigfileEntry.file =
      (List.range starts.length).map (fragmentName configfile) := by
  apply List.ext_getElem
  · rw [List.length_map, List.length_map, List.length_range, entriesOf, List.length_mapIdx]
  · intro i h₁ h₂
    rw [List.getElem_map, List.getElem_map, List.getElem_range]
    simp only [entriesOf, List.getElem_mapIdx]

theorem recordedNames_configBytes {configfile : List UInt16} (hzero : (0 : UInt16) ∉ configfile)
    {filesize : Int} {time : List UInt8} (htime : time.length = 8) {starts : List Int}
    (hstarts : ∀ start ∈ starts, CInt.toInt64 start = start) :
    recordedNames (configBytes configfile filesize time starts) =
      (List.range starts.length).map (fragmentName configfile) := by
  have hdrop : (configBytes configfile filesize time starts).drop 16 =
      (entriesOf configfile starts).flatMap ConfigfileEntry.toBytes :=
    List.drop_left' (by rw [List.length_append, length_int64Bytes, htime])
  rw [recordedNames, readEntries_eq (fun e he => stored_of_mem_entriesOf hzero hstarts he) hdrop,
    entriesOf_map_file]

theorem Laid.starts {s : InetFile} (h : Laid s) :
    ∀ start ∈ s.mFragments.map DiskFragment.mStart, CInt.toInt64 start = start := by
  intro start hstart
  obtain ⟨f, hf, rfl⟩ := List.mem_map.mp hstart
  have hnonneg := (h.fragments f hf).nonneg
  exact CInt.toInt64_of_lt (by omega) (h.fragments f hf).start_lt

/-- **The names in the config file** of an open cache. -/
theorem Laid.recordedNames {s : InetFile} (h : Laid s) :
    recordedNames s.mConfigFileFile.data =
      (List.range s.mFragments.length).map (fragmentName s.mConfigFile) := by
  obtain ⟨time, htime, hdata⟩ := h.config
  rw [hdata, recordedNames_configBytes h.noZero htime h.starts, List.length_map]

theorem nodup_fragmentName {configfile : List UInt16} {n : Nat}
    (h : ∀ i < n, NameFits configfile i) :
    ((List.range n).map (fragmentName configfile)).Nodup := by
  refine (List.nodup_map_iff_inj_on List.nodup_range).mpr ?_
  intro i hi j hj heq
  exact fragmentName_injective (h i (List.mem_range.mp hi)) (h j (List.mem_range.mp hj)) heq

theorem lookup_zip {κ ν : Type*} [BEq κ] [LawfulBEq κ] : ∀ (names : List κ) (contents : List ν),
    names.Nodup → ∀ (i : Nat) (h₁ : i < names.length) (h₂ : i < contents.length),
    (names.zip contents).lookup names[i] = some contents[i] := by
  intro names
  induction names with
  | nil => intro _ _ i h₁ _; exact absurd h₁ (Nat.not_lt_zero i)
  | cons name names ih =>
    intro contents hnodup i h₁ h₂
    cases contents with
    | nil => exact absurd h₂ (Nat.not_lt_zero i)
    | cons content contents =>
      rw [List.nodup_cons] at hnodup
      cases i with
      | zero => rw [List.getElem_cons_zero, List.zip_cons_cons, List.lookup_cons_self]; rfl
      | succ i =>
        have hlt : i < names.length := Nat.lt_of_succ_lt_succ h₁
        have hne : names[i] ≠ name := fun heq => hnodup.1 (heq ▸ List.getElem_mem hlt)
        rw [List.getElem_cons_succ, List.zip_cons_cons, List.lookup_cons, beq_false_of_ne hne]
        exact ih contents hnodup.2 i hlt (Nat.lt_of_succ_lt_succ h₂)

theorem range_append_range' {m n : Nat} (h : m ≤ n) :
    List.range m ++ List.range' m (n - m) = List.range n := by
  rw [List.range_eq_range', List.range_eq_range']
  have := List.range'_append_1 (s := 0) (m := m) (n := n - m)
  rwa [Nat.zero_add, Nat.add_sub_cancel' h] at this

/-- **A session leaves its files behind.** -/
theorem OpenCache.keeps {configfile : List UInt16} {disk : Disk} {m : Nat} {s : InetFile}
    (h : OpenCache (cstr configfile) m s) (hnames : NamesFit s)
    (hloaded : recordedNames disk.config = (List.range m).map (fragmentName (cstr configfile))) :
    Keeps configfile s (disk.left s) := by
  refine ⟨h.laid, hnames, h.name_eq, rfl, ?_⟩
  have hfiles : fileNames (recordedNames disk.config) s =
      (List.range s.mFragments.length).map (fragmentName s.mConfigFile) := by
    rw [fileNames, hloaded, List.length_map, List.length_range, h.name_eq, ← List.map_append,
      range_append_range' h.le]
  intro i hi
  have hlookup := lookup_zip ((List.range s.mFragments.length).map (fragmentName s.mConfigFile))
    (s.mFragments.map fun f => f.mFile.data) (nodup_fragmentName hnames) i
    (by rw [List.length_map, List.length_range]; exact hi) (by rw [List.length_map]; exact hi)
  rw [List.getElem_map, List.getElem_range, List.getElem_map] at hlookup
  rw [Disk.left, hfiles]
  dsimp only
  rw [hlookup, Option.getD_some]

theorem Keeps.config_cases {configfile : List UInt16} {s : InetFile} {disk : Disk}
    (h : Keeps configfile s disk) :
    s.Flushed ∨ disk.config = [] ∧ s.mFragments = [] := by
  rw [h.config]
  exact h.laid.written

theorem Keeps.recordedNames {configfile : List UInt16} {s : InetFile} {disk : Disk}
    (h : Keeps configfile s disk) : recordedNames disk.config =
      (List.range s.mFragments.length).map (fragmentName (cstr configfile)) := by
  rcases h.config_cases with hflushed | ⟨hconfig, hfragments⟩
  · rw [h.config, hflushed, h.laid.recordedNames, h.name_eq]
  · rw [hconfig, hfragments, Cache.recordedNames,
      readEntries_eq (List.forall_mem_nil ConfigfileEntry.Stored) rfl]
    rfl

/-- **The next constructor finds them.** -/
theorem Keeps.openFile {configfile : List UInt16} {s : InetFile} {disk : Disk}
    (h : Keeps configfile s disk) (hflushed : s.Flushed) (t : Int) :
    (InetFile.openFile configfile disk t).mFilesize = s.mFilesize ∧
    (InetFile.openFile configfile disk t).mFragments = s.mFragments ∧
    (InetFile.openFile configfile disk t).mConfigFileFile.data = s.mConfigFileFile.data := by
  obtain ⟨time, htime, hdata⟩ := h.laid.config
  have hsaved : disk.config = s.mConfigFileFile.data := h.config.trans hflushed
  rw [h.name_eq] at hdata
  obtain ⟨hsize, hconfig, hfragments⟩ :=
    openFile_of_config (hsaved.trans hdata) htime h.laid.filesize h.laid.starts t
  refine ⟨hsize, ?_, hconfig.trans hsaved⟩
  rw [hfragments]
  apply List.ext_getElem
  · rw [List.length_map, entriesOf, List.length_mapIdx, List.length_map]
  · intro i h₁ h₂
    have hfile := h.files i h₂
    rw [h.name_eq] at hfile
    rw [List.getElem_map]
    simp only [entriesOf, List.getElem_mapIdx, List.getElem_map]
    rw [hfile]
    exact (h.laid.fragments _ (List.getElem_mem h₂)).eq_ofFile

theorem Keeps.exit {configfile : List UInt16} {s : InetFile} {disk : Disk}
    (h : Keeps configfile s disk) :
    Keeps configfile s.fflush (Process.exit ⟨disk, s.buffered⟩).disk := by
  have hlaid : Laid s.fflush :=
    ⟨h.laid.noZero, h.laid.filesize, h.laid.filesize_pos, h.laid.config, h.laid.fragments,
      Or.inl s.fflush_flushed⟩
  refine ⟨hlaid, h.names, h.name_eq, ?_, h.files⟩
  rw [Process.exit, InetFile.buffered]
  dsimp only
  split
  · next hflushed => exact h.config.trans hflushed
  · next hbuffered =>
    -- the file is still empty, and the header is all there is
    obtain ⟨hdisk, hfragments⟩ := h.laid.written.resolve_left hbuffered
    obtain ⟨time, htime, hdata⟩ := h.laid.config
    have hlength : s.mConfigFileFile.data.length = 16 := by
      rw [hdata, hfragments, configBytes, List.length_append, List.length_append,
        length_int64Bytes, htime]
      rfl
    rw [List.foldl_cons, List.foldl_nil, h.config, hdisk, ByteFile.write_data_of_end rfl,
      List.nil_append, ← hlength, List.take_length]
    rfl

/-! ## Sessions -/

/-- What a session finds: a new config file, or the files of an earlier cache. -/
def Ready (configfile : List UInt16) (disk : Disk) : Prop :=
  disk.config = [] ∨ ∃ s, Keeps configfile s disk ∧ s.Flushed

/-- **`setURL` returns 0 on a cache** that is laid out and has its names; otherwise the
config file is still empty. -/
theorem Ready.opened {configfile : List UInt16} {disk : Disk} (h : Ready configfile disk)
    (x : Session) :
    ((x.opened configfile disk).2 = 0 ∧ NamesFit (x.opened configfile disk).1 ∧
      ∃ m, OpenCache (cstr configfile) m (x.opened configfile disk).1 ∧
        recordedNames disk.config = (List.range m).map (fragmentName (cstr configfile))) ∨
    ((x.opened configfile disk).2 ≠ 0 ∧
      (x.opened configfile disk).1.mConfigFileFile.data = [] ∧
      (x.opened configfile disk).1.mConfigDisk = []) := by
  rcases h with hconfig | ⟨s, hs, hflushed⟩
  · have hopen : InetFile.openFile configfile disk x.time =
        InetFile.create (cstr configfile) x.time := openFile_of_nil hconfig x.time
    rw [Session.opened, hopen, InetFile.setURL,
      if_pos (show (InetFile.create (cstr configfile) x.time).mFilesize = 0 from rfl)]
    split
    · exact Or.inr ⟨by simp, rfl, rfl⟩
    · split
      · exact Or.inr ⟨by simp, rfl, rfl⟩
      · next hpos =>
        refine Or.inl ⟨rfl, fun i hi => absurd hi (Nat.not_lt_zero i), 0,
          ⟨⟨not_mem_cstr _, ?_, ?_, ?_, ?_, Or.inr ⟨rfl, rfl⟩⟩, rfl, Nat.zero_le _⟩, ?_⟩
        · exact toInt64_toInt64 _
        · exact Int.not_le.mp hpos
        · refine ⟨int64Bytes x.time, length_int64Bytes _, ?_⟩
          rw [configBytes, ByteFile.write_data_of_end, ByteFile.write_data_of_end rfl]
          · exact (List.append_nil _).symm
          · rw [ByteFile.write_pos, ByteFile.write_data_of_end rfl, List.length_append]
            rfl
        · intro f hf
          exact absurd hf List.not_mem_nil
        · rw [hconfig, recordedNames, 
            readEntries_eq (List.forall_mem_nil ConfigfileEntry.Stored) rfl]
          rfl
  · obtain ⟨hsize, hfragments, hdata⟩ := hs.openFile hflushed x.time
    have hne : (InetFile.openFile configfile disk x.time).mFilesize ≠ 0 := by
      rw [hsize]
      exact Int.ne_of_gt hs.laid.filesize_pos
    rw [Session.opened, InetFile.setURL, if_neg hne]
    refine Or.inl ⟨rfl, ?_, s.mFragments.length,
      ⟨⟨not_mem_cstr _, ?_, ?_, ?_, ?_, Or.inl ((hs.config.trans hflushed).trans hdata.symm)⟩,
        rfl, ?_⟩, hs.recordedNames⟩
    · have hfit := hs.names
      rw [NamesFit, hs.name_eq] at hfit
      rw [NamesFit, hfragments]
      exact hfit
    · rw [hsize]
      exact hs.laid.filesize
    · rw [hsize]
      exact hs.laid.filesize_pos
    · obtain ⟨time, htime, hlaid⟩ := hs.laid.config
      refine ⟨time, htime, ?_⟩
      rw [hdata, hsize, hfragments, hlaid, hs.name_eq]
      rfl
    · rw [hfragments]
      exact hs.laid.fragments
    · rw [hfragments]

theorem OpenCache.run {configfile : List UInt16} {m : Nat} {calls : List Call} {s : InetFile}
    (h : OpenCache configfile m s) (hfeeds : ∀ a ∈ calls, ∀ c ∈ a.feeds, c.Promised) :
    OpenCache configfile m (run callStep s calls) :=
  along_run (OpenCache configfile m) (fun _ _ hs ha => hs.call ha) calls s h
    (along_of_forall calls s hfeeds)

theorem NamesFit.run {calls : List Call} {s : InetFile} (h : NamesFit s) (hs : Laid s)
    (hfeeds : ∀ a ∈ calls, ∀ c ∈ a.feeds, c.Promised)
    (hnames : Along callStep (fun s a => Along feedStep NameOk s a.feeds) s calls) :
    NamesFit (run callStep s calls) :=
  (along_run (fun s => Laid s ∧ NamesFit s)
    (fun _ _ hs ha => ⟨hs.1.call ha.2, hs.2.call hs.1 ha.2 ha.1⟩) calls s ⟨hs, h⟩
    (along_and_forall calls s hnames hfeeds)).2

/-- A process that finds such a disk, and has nothing left in a buffer. -/
structure Process.Ready (configfile : List UInt16) (p : Process) : Prop where
  disk : Cache.Ready configfile p.disk
  buffers : p.buffers = []

/-- **A session leaves the cache that it ends with**, apart from what is buffered. -/
theorem Ready.left {configfile : List UInt16} {disk : Disk} (h : Ready configfile disk)
    {x : Session} (hfeeds : x.Promised) (hnames : x.NamesOk configfile disk)
    (hreturned : (x.opened configfile disk).2 = 0) :
    Keeps configfile (x.last configfile disk) (disk.left (x.last configfile disk)) := by
  rcases h.opened x with ⟨-, hfit, m, hopenCache, hloaded⟩ | ⟨hfailed, -⟩
  · rw [Session.last, if_pos hreturned]
    exact (hopenCache.run hfeeds).keeps (hfit.run hopenCache.laid hfeeds hnames) hloaded
  · exact absurd hreturned hfailed

/-- **A session that is saved** leaves nothing in a buffer, and its cache on disk. -/
theorem Process.Ready.step_saved {configfile : List UInt16} {p : Process}
    (h : p.Ready configfile) {x : Session} (hfeeds : x.Promised)
    (hnames : x.NamesOk configfile p.disk) (hsaved : x.Saved configfile p.disk)
    (hreturned : (x.opened configfile p.disk).2 = 0) :
    Keeps configfile (x.last configfile p.disk).fflush (x.step configfile p).disk ∧
      (x.step configfile p).buffers = [] := by
  have hkeeps := h.disk.left hfeeds hnames hreturned
  rw [Session.step, h.buffers, List.nil_append]
  by_cases hexits : x.exits = true
  · rw [if_pos hexits]
    exact ⟨hkeeps.exit, rfl⟩
  · have hflushed : (x.last configfile p.disk).Flushed := hsaved.resolve_left hexits
    rw [if_neg hexits, InetFile.buffered, if_pos hflushed]
    refine ⟨?_, rfl⟩
    rwa [InetFile.fflush_of_flushed hflushed]

/-- **A session keeps the process ready** for the next one. -/
theorem Process.Ready.step {configfile : List UInt16} {p : Process} (h : p.Ready configfile)
    {x : Session} (hfeeds : x.Promised) (hnames : x.NamesOk configfile p.disk)
    (hsaved : x.Saved configfile p.disk) : (x.step configfile p).Ready configfile := by
  by_cases hreturned : (x.opened configfile p.disk).2 = 0
  · obtain ⟨hkeeps, hbuffers⟩ := h.step_saved hfeeds hnames hsaved hreturned
    exact ⟨Or.inr ⟨_, hkeeps, InetFile.fflush_flushed _⟩, hbuffers⟩
  · rcases h.disk.opened x with ⟨hzero, -⟩ | ⟨-, hdata, hdisk⟩
    · exact absurd hzero hreturned
    · have hlast : x.last configfile p.disk = (x.opened configfile p.disk).1 := by
        rw [Session.last, if_neg hreturned]
      have hflushed : (x.last configfile p.disk).Flushed := by
        rw [hlast, InetFile.Flushed, hdata, hdisk]
      have hconfig : (p.disk.left (x.last configfile p.disk)).config = [] := by
        rw [Disk.left, hlast, hdisk]
      rw [Session.step, h.buffers, InetFile.buffered, if_pos hflushed]
      split
      · exact ⟨Or.inl hconfig, rfl⟩
      · exact ⟨Or.inl hconfig, rfl⟩

/-- **What is not saved is not found**: the next constructor of the process has no size. -/
theorem Process.Ready.reload_of_buffered {configfile : List UInt16} {p : Process}
    (h : p.Ready configfile) {x : Session} (hfeeds : x.Promised)
    (hnames : x.NamesOk configfile p.disk) (hreturned : (x.opened configfile p.disk).2 = 0)
    (hsaved : ¬x.Saved configfile p.disk) (time : Int) :
    (InetFile.openFile configfile (x.step configfile p).disk time).mFilesize = 0 ∧
      ¬ReloadsSame configfile p x time := by
  rw [Session.Saved, not_or] at hsaved
  have hkeeps := h.disk.left hfeeds hnames hreturned
  have hconfig : (x.step configfile p).disk.config = [] := by
    rw [Session.step, if_neg hsaved.1]
    exact (hkeeps.config_cases.resolve_left hsaved.2).1
  have hzero : (InetFile.openFile configfile (x.step configfile p).disk time).mFilesize = 0 := by
    rw [openFile_of_nil hconfig]
    rfl
  refine ⟨hzero, fun hsame => ?_⟩
  have hsize := hsame.filesize
  rw [hzero] at hsize
  exact absurd hsize.symm (Int.ne_of_gt hkeeps.laid.filesize_pos)

/-- **The reload**, after any sessions on a new config file that are saved and whose new
names all fit. -/
theorem reload_same (configfile : List UInt16) (files : List UInt16 → List UInt8)
    (earlier : List Session) (x : Session) (time : Int)
    (hfeeds : ∀ y ∈ earlier ++ [x], y.Promised)
    (hok : Along (Session.step configfile)
      (fun p y => y.NamesOk configfile p.disk ∧ y.Saved configfile p.disk) ⟨⟨[], files⟩, []⟩
      (earlier ++ [x]))
    (hreturned :
      (x.opened configfile (run (Session.step configfile) ⟨⟨[], files⟩, []⟩ earlier).disk).2 = 0) :
    ReloadsSame configfile (run (Session.step configfile) ⟨⟨[], files⟩, []⟩ earlier) x time := by
  rw [along_append] at hok
  have hready : (run (Session.step configfile) ⟨⟨[], files⟩, []⟩ earlier).Ready configfile :=
    along_run (Process.Ready configfile) (fun _ _ hs hy => hs.step hy.2 hy.1.1 hy.1.2) earlier _
      ⟨Or.inl rfl, rfl⟩
      (along_and_forall earlier _ hok.1 fun y hy => hfeeds y (List.mem_append_left _ hy))
  have hx : x.Promised := hfeeds x (List.mem_append_right _ (List.mem_singleton_self x))
  obtain ⟨hkeeps, -⟩ := hready.step_saved hx hok.2.1.1 hok.2.1.2 hreturned
  obtain ⟨hsize, hfragments, -⟩ := hkeeps.openFile (InetFile.fflush_flushed _) time
  refine ⟨hsize, by rw [hfragments, InetFile.fflush_mFragments], ?_⟩
  rw [hkeeps.recordedNames, ← hkeeps.name_eq]
  exact nodup_fragmentName hkeeps.names

/-! ## Examples -/

/-- A session on a new config file that feeds two blocks that are apart. -/
def twoBlocks : Session where
  time := 0
  responsecode := 200
  contentLength := 100
  calls := [.feed ⟨[1], ⟨0, 1⟩⟩, .feed ⟨[2], ⟨10, 11⟩⟩]
  exits := false

theorem twoBlocks_promised : twoBlocks.Promised := by
  unfold Session.Promised
  decide

theorem twoBlocks_opened (configfile : List UInt16) (files : List UInt16 → List UInt8) :
    twoBlocks.opened configfile ⟨[], files⟩ =
      (InetFile.create (cstr configfile) 0).setURL 200 100 := by
  rw [Session.opened, openFile_of_nil rfl]
  rfl

theorem twoBlocks_saved : twoBlocks.Saved [97] ⟨[], fun _ => []⟩ := by
  have hreturned : ((InetFile.create (cstr [97]) 0).setURL 200 100).2 = 0 := by decide
  refine Or.inr ?_
  rw [Session.last, twoBlocks_opened, if_pos hreturned]
  refine flushed_of_opens
    (s := callStep ((InetFile.create (cstr [97]) 0).setURL 200 100).1 (.feed ⟨[1], ⟨0, 1⟩⟩))
    ?_ (c := ⟨[2], ⟨10, 11⟩⟩) (by decide) (by decide)
  unfold NonEmpty
  decide

/-- Two fragments of a cache whose config file is called `a`. -/
theorem reload_same_twoBlocks : ReloadsSame [97] ⟨⟨[], fun _ => []⟩, []⟩ twoBlocks 0 := by
  refine reload_same [97] (fun _ => []) [] twoBlocks 0 ?_ ⟨?_, trivial⟩ ?_
  · intro y hy
    rw [List.mem_singleton.mp hy]
    exact twoBlocks_promised
  · change twoBlocks.NamesOk [97] ⟨[], fun _ => []⟩ ∧ twoBlocks.Saved [97] ⟨[], fun _ => []⟩
    refine ⟨?_, twoBlocks_saved⟩
    rw [Session.NamesOk, twoBlocks_opened]
    decide
  · rw [run_nil, twoBlocks_opened]
    decide

/-- **Names that are cut off are the same.**  The name of the config file is 256 units
long, and both fragments get `….00`. -/
theorem reload_names_same : ¬ ∀ (configfile : List UInt16) (files : List UInt16 → List UInt8)
    (earlier : List Session) (x : Session) (time : Int), (∀ y ∈ earlier ++ [x], y.Promised) →
    (x.opened configfile (run (Session.step configfile) ⟨⟨[], files⟩, []⟩ earlier).disk).2 = 0 →
    ReloadsSame configfile (run (Session.step configfile) ⟨⟨[], files⟩, []⟩ earlier) x time := by
  intro h
  have hpromised : ∀ y ∈ [] ++ [twoBlocks], y.Promised := by
    intro y hy
    rw [List.mem_singleton.mp hy]
    exact twoBlocks_promised
  have hopened := twoBlocks_opened (List.replicate 256 97) (fun _ => [])
  have hreturned : (twoBlocks.opened (List.replicate 256 97) ⟨[], fun _ => []⟩).2 = 0 := by
    rw [hopened]
    decide
  have hnames := (h (List.replicate 256 97) (fun _ => []) [] twoBlocks 0 hpromised hreturned).names
  have hready : Ready (List.replicate 256 97) ⟨[], fun _ => []⟩ := Or.inl rfl
  rcases hready.opened twoBlocks with ⟨-, -, m, hopenCache, -⟩ | ⟨hfailed, -⟩
  · have hlast := hopenCache.run twoBlocks_promised
    have hlen : (run callStep (twoBlocks.opened (List.replicate 256 97) ⟨[], fun _ => []⟩).1
        twoBlocks.calls).mFragments.length = 2 := by
      rw [hopened]
      decide
    have hrecorded := hlast.laid.recordedNames
    rw [hlen, hlast.name_eq] at hrecorded
    have hstep : (twoBlocks.step (List.replicate 256 97) ⟨⟨[], fun _ => []⟩, []⟩).disk.config =
        (run callStep (twoBlocks.opened (List.replicate 256 97) ⟨[], fun _ => []⟩).1
          twoBlocks.calls).mConfigFileFile.data := by
      rw [Session.step, if_neg (show ¬twoBlocks.exits = true by decide), Disk.left, Session.last,
        if_pos hreturned]
      refine hlast.laid.written.resolve_right fun hempty => ?_
      rw [hempty.2] at hlen
      exact absurd hlen (by decide)
    rw [run_nil, hstep, hrecorded] at hnames
    exact absurd hnames (by decide +kernel)
  · exact hfailed hreturned

end DWindow.Cache
