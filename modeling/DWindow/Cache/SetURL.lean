import DWindow.Cache.Layout

/-!
# The first worker and the header

`setURL` hands its first worker over before it writes the header of a new config file,
and it does not take the lock under which `feed` writes its entries.  The seeks and the
writes of the two move one file position, in any order.

An entry that comes before the second field of the header ends up in the header's place
(`header_overwrites_entry`).  When all entries come later, the file is the header and
the entries (`config_wellFormed`), wherever the seeks to the end stand.
-/

namespace DWindow.Cache

open CInt Runs WString

/-- What `setURL` does next. -/
inductive SetURLPlace
  | seek
  | writeFilesize
  | writeTime
  | done
deriving DecidableEq, Repr

/-- The config file while the first worker starts: what `setURL` does next, the start of
the fragment whose entry `feed` is about to write, and those whose entries it has written. -/
structure Starting where
  file : ByteFile
  place : SetURLPlace
  seeking : Option Int
  starts : List Int
deriving DecidableEq, Repr

/-- The next step of `setURL`, or a step of the worker's calls of `feed`. -/
inductive StartStep
  | setURL
  | seekEnd (start : Int)
  | writeEntry
deriving DecidableEq, Repr

namespace Starting

/-- A new config file, when `setURL` has handed the worker over. -/
def create : Starting := ⟨ByteFile.empty, .seek, none, []⟩

variable (configfile : List UInt16) (filesize time : Int)

/-- `fwrite(&entry, 1, sizeof(entry), …)`. -/
def writeEntry (s : Starting) (start : Int) : Starting :=
  { s with
    file := s.file.write
      (ConfigfileEntry.toBytes ⟨start, fragmentName (cstr configfile) s.starts.length⟩)
    seeking := none
    starts := s.starts ++ [start] }

/-- A step; nothing happens where nobody is at it. -/
def step (s : Starting) : StartStep → Starting
  | .setURL =>
    match s.place with
    | .seek => { s with file := s.file.seekSet 0, place := .writeFilesize }
    | .writeFilesize =>
      { s with file := s.file.write (int64Bytes (toInt64 filesize)), place := .writeTime }
    | .writeTime => { s with file := s.file.write (int64Bytes time), place := .done }
    | .done => s
  | .seekEnd start =>
    match s.seeking with
    | none => { s with file := s.file.seekEnd, seeking := some (toInt64 start) }
    | some _ => s
  | .writeEntry =>
    match s.seeking with
    | none => s
    | some start => s.writeEntry configfile start

/-- An entry is written behind the header. -/
def EntryLate (s : Starting) (a : StartStep) : Prop :=
  a = .writeEntry → s.seeking ≠ none → s.place = .done

instance (s : Starting) (a : StartStep) : Decidable (EntryLate s a) :=
  inferInstanceAs (Decidable (_ → _ → _))

/-- The config file is the header and the entries, and a constructor that finds it sees
the file size and every fragment. -/
structure WellFormed (s : Starting) : Prop where
  config : s.file.data = configBytes (cstr configfile) (toInt64 filesize) (int64Bytes time) s.starts
  reload : ∀ (files : List UInt16 → List UInt8) (t : Int),
    (InetFile.openFile configfile ⟨s.file.data, files⟩ t).mFilesize = toInt64 filesize ∧
    (InetFile.openFile configfile ⟨s.file.data, files⟩ t).mFragments.map DiskFragment.mStart =
      s.starts

/-- What `setURL` has written so far. -/
def header : SetURLPlace → List UInt8
  | .seek => []
  | .writeFilesize => []
  | .writeTime => int64Bytes (toInt64 filesize)
  | .done => int64Bytes (toInt64 filesize) ++ int64Bytes time

/-- The file is what `setURL` has written and the entries behind it; the position is at
the end before the header is there, and whenever an entry is about to be written. -/
structure InOrder (s : Starting) : Prop where
  data : s.file.data = header filesize time s.place ++
    (entriesOf (cstr configfile) s.starts).flatMap ConfigfileEntry.toBytes
  early : s.place ≠ .done → s.starts = [] ∧ s.file.pos = s.file.data.length
  atEnd : s.seeking ≠ none → s.file.pos = s.file.data.length
  starts : ∀ start ∈ s.starts, toInt64 start = start
  next : ∀ start ∈ s.seeking, toInt64 start = start

variable {configfile filesize time}

theorem inOrder_create : InOrder configfile filesize time create where
  data := rfl
  early _ := ⟨rfl, rfl⟩
  atEnd h := absurd rfl h
  starts _ h := absurd h List.not_mem_nil
  next _ h := absurd h (by simp [create])

theorem write_atEnd {f : ByteFile} (h : f.pos = f.data.length) (bs : List UInt8) :
    (f.write bs).data = f.data ++ bs ∧ (f.write bs).pos = (f.write bs).data.length := by
  have hdata := ByteFile.write_data_of_end h bs
  rw [hdata, ByteFile.write_pos, h, List.length_append]
  exact ⟨rfl, rfl⟩

/-- **A step keeps the order** unless it writes an entry too early. -/
theorem InOrder.step {s : Starting} {a : StartStep} (h : InOrder configfile filesize time s)
    (ha : EntryLate s a) :
    InOrder configfile filesize time (s.step configfile filesize time a) := by
  obtain ⟨file, place, seeking, starts⟩ := s
  obtain ⟨hdata, hearly, hend, hstarts, hnext⟩ := h
  dsimp only at hdata hearly hend hstarts hnext
  cases a with
  | setURL =>
    cases place with
    | seek =>
      obtain ⟨rfl, hpos⟩ := hearly (by decide)
      have hnil : file.data.length = 0 := congrArg List.length hdata
      have hseek : (file.seekSet 0).pos = file.data.length := hnil.symm
      exact ⟨hdata, fun _ => ⟨rfl, hseek⟩, fun _ => hseek, hstarts, hnext⟩
    | writeFilesize =>
      obtain ⟨rfl, hpos⟩ := hearly (by decide)
      have hwrite := write_atEnd hpos (int64Bytes (toInt64 filesize))
      refine ⟨hwrite.1.trans ?_, fun _ => ⟨rfl, hwrite.2⟩, fun _ => hwrite.2, hstarts, hnext⟩
      rw [hdata]
      exact (List.append_nil _).symm
    | writeTime =>
      obtain ⟨rfl, hpos⟩ := hearly (by decide)
      have hwrite := write_atEnd hpos (int64Bytes time)
      refine ⟨hwrite.1.trans ?_, fun h => absurd rfl h, fun _ => hwrite.2, hstarts, hnext⟩
      rw [hdata]
      exact (List.append_nil _).symm
    | done => exact ⟨hdata, hearly, hend, hstarts, hnext⟩
  | seekEnd start =>
    cases seeking with
    | none =>
      refine ⟨hdata, fun h => ⟨(hearly h).1, rfl⟩, fun _ => rfl, hstarts, ?_⟩
      intro start' hstart'
      rw [← Option.some.inj hstart']
      exact toInt64_toInt64 start
    | some start' => exact ⟨hdata, hearly, hend, hstarts, hnext⟩
  | writeEntry =>
    cases seeking with
    | none => exact ⟨hdata, hearly, hend, hstarts, hnext⟩
    | some start =>
      have hdone : place = .done := ha rfl (by simp)
      change InOrder configfile filesize time (writeEntry configfile _ start)
      have hwrite := write_atEnd (hend (by simp))
        (ConfigfileEntry.toBytes ⟨start, fragmentName (cstr configfile) starts.length⟩)
      refine ⟨hwrite.1.trans ?_, fun h => absurd hdone h, fun h => absurd rfl h, ?_, ?_⟩
      · rw [writeEntry, hdata, entriesOf_append, List.flatMap_append, ← List.append_assoc]
        simp only [List.flatMap_cons, List.flatMap_nil, List.append_nil]
      · intro start' hstart'
        rcases List.mem_append.mp hstart' with hstart' | hstart'
        · exact hstarts start' hstart'
        · rw [List.mem_singleton.mp hstart']
          exact hnext start rfl
      · intro start' hstart'
        exact absurd hstart' (by simp [writeEntry])

theorem InOrder.wellFormed {s : Starting} (h : InOrder configfile filesize time s)
    (hdone : s.place = .done) : WellFormed configfile filesize time s := by
  have hconfig : s.file.data =
      configBytes (cstr configfile) (toInt64 filesize) (int64Bytes time) s.starts := by
    rw [h.data, hdone]
    rfl
  refine ⟨hconfig, fun files t => ?_⟩
  have hdisk : (⟨s.file.data, files⟩ : Disk).config =
      configBytes (cstr configfile) (toInt64 filesize) (int64Bytes time) s.starts := hconfig
  obtain ⟨hsize, -, hfragments⟩ := openFile_of_config hdisk (length_int64Bytes time)
    (toInt64_toInt64 filesize) h.starts t
  refine ⟨hsize, ?_⟩
  rw [hfragments, List.map_map]
  apply List.ext_getElem
  · rw [List.length_map, entriesOf, List.length_mapIdx]
  · intro i h₁ h₂
    simp only [List.getElem_map, entriesOf, List.getElem_mapIdx]
    rfl

variable (configfile filesize time)

/-- **The config file is well formed** in every state after `setURL` of a run that writes
all entries behind the header. -/
theorem config_wellFormed (steps : List StartStep)
    (h : Along (step configfile filesize time) EntryLate create steps)
    (hdone : (run (step configfile filesize time) create steps).place = .done) :
    WellFormed configfile filesize time (run (step configfile filesize time) create steps) :=
  (along_run (InOrder configfile filesize time) (fun _ _ hs ha => hs.step ha) steps create
    inOrder_create h).wellFormed hdone

/-- The worker seeks first and writes last, and goes on with a second entry. -/
theorem config_wellFormed_two : WellFormed [97] 100 0 (run (step [97] 100 0) create
    [.seekEnd 0, .setURL, .setURL, .setURL, .writeEntry, .seekEnd 65536, .writeEntry]) :=
  config_wellFormed [97] 100 0 _ (by decide) (by decide)

/-- **The header overwrites an entry** that is written before it. -/
theorem header_overwrites_entry : ¬ ∀ (configfile : List UInt16) (filesize time : Int)
    (steps : List StartStep), (run (step configfile filesize time) create steps).place = .done →
    WellFormed configfile filesize time (run (step configfile filesize time) create steps) := by
  intro h
  have hconfig :=
    (h [97] 100 0 [.seekEnd 0, .writeEntry, .setURL, .setURL, .setURL] (by decide)).config
  exact absurd (congrArg List.length hconfig) (by decide +kernel)

end Starting

end DWindow.Cache
