import DWindow.Cache.Assembled
import DWindow.Hook.ConfigName
import DWindow.Hook.Managers

/-!
# Caches of different URLs

`HTTPHook::create` finds a live manager by the UTF-8 form of its URL, and what an earlier
manager has left in the cache folder by the checksum of the URL.  Neither the config file nor
the fragments say which URL they are for.  Here all managers share one folder, and beside it
stands on whose behalf what was downloaded, and for which URLs each file has been open.

No URL gets to see what belongs to another one as long as no two of them have the same
checksum or the same UTF-8 form (`isolated_of_separate`).  Two that do share their files
(`size_of_another_url`).

The folder holds what has been flushed of a config file.  When another manager has the config
file open, the two write over each other's buffers: such a `create` has no result.  The feeds of
other managers do not come in the middle of a `get`: they go to other files.
-/

namespace DWindow.Hook

open Cache Function Runs WString

/-- `inet_file` with `m_URL`. -/
structure Manager where
  url : List UInt16
  file : InetFile

structure Downloads where
  sizes : List (List UInt16 × Int)
  blocks : List (List UInt16 × List UInt8)

/-- The hooks, their managers and the cache folder, with a file that does not exist as an
empty one; beside it for which URLs each file has been open, what has been downloaded for
which URL, and what has been delivered to hooks for which URL. -/
structure Hooked where
  active : ActiveFiles
  managers : Nat → Option Manager
  folder : List UInt16 → List UInt8
  openedFor : List UInt16 → List (List UInt16)
  downloads : Downloads
  delivered : List (List UInt16 × Buffer)

/-- A call of `create`, with the time and what the server answers if it is asked, what
happens to the manager of the live hook number `i`, or the destruction of that hook.  A worker
hands over whole blocks. -/
inductive HookOp
  | create (url : List UInt16) (time responsecode contentLength : Int)
  | call (i : Nat) (a : { a : Call // ∀ c ∈ a.feeds, c.Promised })
  | destroy (i : Nat)

/-- The blocks downloaded for a URL. -/
def Downloads.blocksOf (d : Downloads) (url : List UInt16) : List (List UInt8) :=
  (d.blocks.filter (·.1 = url)).map Prod.snd

namespace Hooked

variable (w2utf8 : List UInt16 → List UInt8) (path : List UInt16)

/-- Before the first call; the cache folder is empty. -/
def init : Hooked := ⟨ActiveFiles.init, fun _ => none, fun _ => [], fun _ => [], ⟨[], []⟩, []⟩

/-- The folder, as a manager for the URL finds it. -/
def disk (s : Hooked) (url : List UInt16) : Disk := ⟨s.folder (configName path url), s.folder⟩

def filesOf (s : Hooked) (m : Manager) : List (List UInt16) :=
  configName path m.url :: fileNames (recordedNames (s.folder (configName path m.url))) m.file

/-- A manager and its files, as it has written them. -/
def store (s : Hooked) (p : Nat) (m : Manager) : Hooked :=
  { s with
    managers := update s.managers p (some m)
    folder := fun name =>
      if name = configName path m.url then m.file.mConfigDisk
      else ((s.disk path m.url).left m.file).files name
    openedFor := fun name =>
      if name ∈ s.filesOf path m then m.url :: s.openedFor name else s.openedFor name }

/-- A live manager has the config file of the URL open. -/
def inUse (s : Hooked) (url : List UInt16) : Bool :=
  s.active.list.any fun e =>
    (s.managers e.manager).any fun m => configName path m.url = configName path url

def create (s : Hooked) (url : List UInt16) (time responsecode contentLength : Int) :
    Option Hooked :=
  match share (w2utf8 url) s.active.list with
  | some _ => (s.active.create w2utf8 url 0).map fun active => { s with active := active }
  | none =>
    if s.inUse path url then none
    else
      let file := InetFile.openFile (configName path url) (s.disk path url) time
      let opened := file.setURL responsecode contentLength
      (s.active.create w2utf8 url opened.2).map fun active =>
        if opened.2 < 0 then { s with active := active }
        else
          store path
            { s with
              active := active
              downloads :=
                { s.downloads with
                  sizes := if file.mFilesize = 0 then
                      s.downloads.sizes ++ [(url, opened.1.mFilesize)] else s.downloads.sizes } }
            s.active.created ⟨url, opened.1⟩

def delivery (url : List UInt16) (file : InetFile) : Call → List (List UInt16 × Buffer)
  | .feed _ => []
  | .get pos work now =>
    ((file.get (Call.rounds file work) now pos).map fun r => (url, r.buf)).toList

def call (s : Hooked) (i : Nat) (a : Call) : Hooked :=
  match s.active.hooks[i]? with
  | none => s
  | some hook =>
    match s.managers hook.mCore with
    | none => s
    | some m =>
      { s.store path hook.mCore { m with file := callStep m.file a } with
        downloads :=
          { s.downloads with
            blocks := s.downloads.blocks ++ a.feeds.map fun c => (m.url, c.buf) }
        delivered := s.delivered ++ delivery hook.url m.file a }

def step (o : Option Hooked) : HookOp → Option Hooked
  | .create url time responsecode contentLength =>
    o.bind fun s => s.create w2utf8 path url time responsecode contentLength
  | .call i a => o.map fun s => s.call path i a
  | .destroy i => o.map fun s => { s with active := s.active.destroy i }

/-- **A hook gets to see its own URL only**: it is on a manager of its URL, the size was
downloaded for it, the fragments are made of blocks downloaded for it, and the files have been
open for it only; and what has been delivered to hooks on a URL was downloaded for it. -/
structure Isolated (s : Hooked) : Prop where
  own : ∀ h ∈ s.active.hooks, ∃ m ∈ s.managers h.mCore, m.url = h.url ∧
    (h.url, m.file.mFilesize) ∈ s.downloads.sizes ∧
    (∀ f ∈ m.file.mFragments, Assembled (s.downloads.blocksOf h.url) f.mFile.data) ∧
    ∀ name ∈ s.filesOf path m, ∀ url ∈ s.openedFor name, url = h.url
  delivered : ∀ d ∈ s.delivered, ∀ o b, d.2 o = some b →
    ∃ block ∈ s.downloads.blocksOf d.1, b ∈ block

/-- A `create` whose URL fits, finds no manager of another URL, and nothing in the folder
under the checksum of another URL; and the names of new fragments fit. -/
def Separate (o : Option Hooked) : HookOp → Prop
  | .create url _ _ _ => ∀ s ∈ o, (w2utf8 url).length < urlSize ∧
      (∀ e ∈ s.active.list, ∀ m ∈ s.managers e.manager, w2utf8 m.url = w2utf8 url → m.url = url) ∧
      ∀ q ∈ s.downloads.sizes, nameCrc q.1 = nameCrc url → q.1 = url
  | .call i a => ∀ s ∈ o, ∀ hook ∈ s.active.hooks[i]?, ∀ m ∈ s.managers hook.mCore,
      Along feedStep NameOk m.file a.1.feeds
  | .destroy _ => True

instance decidableSeparate (o : Option Hooked) : ∀ op, Decidable (Separate w2utf8 o op)
  | .create url _ _ _ => inferInstanceAs (Decidable (∀ s ∈ o, (w2utf8 url).length < urlSize ∧
      (∀ e ∈ s.active.list, ∀ m ∈ s.managers e.manager, w2utf8 m.url = w2utf8 url → m.url = url) ∧
      ∀ q ∈ s.downloads.sizes, nameCrc q.1 = nameCrc url → q.1 = url))
  | .call i a => inferInstanceAs (Decidable (∀ s ∈ o, ∀ hook ∈ s.active.hooks[i]?,
      ∀ m ∈ s.managers hook.mCore, Along feedStep NameOk m.file a.1.feeds))
  | .destroy _ => isTrue trivial

/-! ## The files of a URL -/

def IsFile (url name : List UInt16) : Prop :=
  name = configName path url ∨
    ∃ i, NameFits (configName path url) i ∧ name = fragmentName (configName path url) i

variable {w2utf8 : List UInt16 → List UInt8} {path : List UInt16}

/-- **Different checksums have different files.** -/
theorem IsFile.crc_eq {u v name : List UInt16} (hu : IsFile path u name)
    (hv : IsFile path v name) : nameCrc u = nameCrc v := by
  rcases hu with rfl | ⟨i, hi, rfl⟩
  · rcases hv with hv | ⟨j, hj, hv⟩
    · exact nameCrc_eq_of_configName_eq hv
    · exact absurd hv (configName_ne_fragmentName hj)
  · rcases hv with hv | ⟨j, hj, hv⟩
    · exact absurd hv.symm (configName_ne_fragmentName hi)
    · exact nameCrc_eq_of_fragmentName_eq hi hj hv

/-- A manager that goes on from the files it has found. -/
structure Resumes (path : List UInt16) (s : Hooked) (m : Manager) : Prop where
  opened : ∃ k, OpenCache (configName path m.url) k m.file ∧
    recordedNames (s.folder (configName path m.url)) =
      (List.range k).map (fragmentName (configName path m.url))
  names : NamesFit m.file

/-- The files of the URL are in the folder, and were downloaded for it. -/
structure Cached (path : List UInt16) (s : Hooked) (url : List UInt16) (file : InetFile) :
    Prop where
  keeps : Keeps (configName path url) file (s.disk path url)
  sized : (url, file.mFilesize) ∈ s.downloads.sizes
  assembled : AssembledFrom (s.downloads.blocksOf url) file

theorem mem_blocksOf {d : Downloads} {url : List UInt16} {block : List UInt8} :
    block ∈ d.blocksOf url ↔ (url, block) ∈ d.blocks := by
  rw [Downloads.blocksOf, List.mem_map]
  constructor
  · rintro ⟨⟨u, b⟩, hb, rfl⟩
    rw [List.mem_filter, decide_eq_true_eq] at hb
    obtain ⟨hb, rfl⟩ := hb
    exact hb
  · intro h
    exact ⟨(url, block), List.mem_filter.mpr ⟨h, decide_eq_true rfl⟩, rfl⟩

section store

variable {s : Hooked} {m : Manager} {active : ActiveFiles} {d : Downloads}
  {del : List (List UInt16 × Buffer)} {p : Nat}

theorem Resumes.filesOf_eq (h : Resumes path s m) : s.filesOf path m =
    configName path m.url :: (List.range m.file.mFragments.length).map
      (fragmentName (configName path m.url)) := by
  obtain ⟨⟨k, hk, hloaded⟩, -⟩ := h
  rw [filesOf, fileNames, hloaded, List.length_map, List.length_range, hk.name_eq,
    ← List.map_append, range_append_range' hk.le]

theorem Resumes.isFile (h : Resumes path s m) {name : List UInt16}
    (hname : name ∈ s.filesOf path m) : IsFile path m.url name := by
  rw [h.filesOf_eq, List.mem_cons, List.mem_map] at hname
  rcases hname with rfl | ⟨i, hi, rfl⟩
  · exact Or.inl rfl
  · obtain ⟨⟨k, hk, -⟩, hnames⟩ := h
    have hfits := hnames i (List.mem_range.mp hi)
    rw [hk.name_eq] at hfits
    exact Or.inr ⟨i, hfits, rfl⟩

theorem lookup_zip_of_notMem {κ ν : Type*} [BEq κ] [LawfulBEq κ] {name : κ} :
    ∀ (names : List κ) (contents : List ν), name ∉ names →
      (names.zip contents).lookup name = none := by
  intro names contents h
  rw [List.lookup_eq_none_iff]
  intro q hq
  rw [bne_iff_ne]
  rintro rfl
  exact h (List.of_mem_zip hq).1

/-- **The other files stay.** -/
theorem Resumes.folder_eq (h : Resumes path s m) {name : List UInt16}
    (hname : ¬ IsFile path m.url name) : (s.store path p m).folder name = s.folder name := by
  have hnot : name ∉ s.filesOf path m := fun hmem => hname (h.isFile hmem)
  rw [filesOf, List.mem_cons, not_or] at hnot
  rw [store]
  dsimp only
  rw [if_neg hnot.1, Disk.left]
  dsimp only
  rw [disk, lookup_zip_of_notMem _ _ hnot.2, Option.getD_none]

theorem Resumes.keeps (h : Resumes path s m) :
    Keeps (configName path m.url) m.file ((s.store path p m).disk path m.url) := by
  obtain ⟨⟨k, hk, hloaded⟩, hnames⟩ := h
  have hcstr := cstr_configName path m.url
  have hleft : Keeps (configName path m.url) m.file ((s.disk path m.url).left m.file) := by
    refine OpenCache.keeps (m := k) ?_ hnames ?_
    · rw [hcstr]
      exact hk
    · rw [hcstr]
      exact hloaded
  refine ⟨hleft.laid, hnames, hleft.name_eq, ?_, fun i hi => ?_⟩
  · rw [disk, store]
    dsimp only
    rw [if_pos rfl]
  · have hne : fragmentName m.file.mConfigFile i ≠ configName path m.url := by
      have hfits := hnames i hi
      rw [hk.name_eq] at hfits ⊢
      exact (configName_ne_fragmentName hfits).symm
    rw [disk, store]
    dsimp only
    rw [if_neg hne]
    exact hleft.files i hi

/-- **The cache of a URL with another checksum stays.** -/
theorem Resumes.keeps_other (h : Resumes path s m) {v : List UInt16} {file : InetFile}
    (hne : nameCrc v ≠ nameCrc m.url) (hkeeps : Keeps (configName path v) file (s.disk path v)) :
    Keeps (configName path v) file ((s.store path p m).disk path v) := by
  have hother : ∀ name, IsFile path v name → (s.store path p m).folder name = s.folder name :=
    fun name hv => h.folder_eq fun hm => hne (hv.crc_eq hm)
  refine ⟨hkeeps.laid, hkeeps.names, hkeeps.name_eq, ?_, fun i hi => ?_⟩
  · rw [← hkeeps.config]
    exact hother _ (Or.inl rfl)
  · have hfits := hkeeps.names i hi
    rw [hkeeps.name_eq, cstr_configName] at hfits
    rw [← hkeeps.files i hi]
    refine hother _ (Or.inr ⟨i, hfits, ?_⟩)
    rw [hkeeps.name_eq, cstr_configName]

theorem Cached.resumes {url : List UInt16} {file : InetFile} (h : Cached path s url file) :
    Resumes path s ⟨url, file⟩ := by
  have hcstr := cstr_configName path url
  have hname := h.keeps.name_eq
  rw [hcstr] at hname
  have hloaded := h.keeps.recordedNames
  rw [hcstr] at hloaded
  exact ⟨⟨_, ⟨h.keeps.laid, hname, Nat.le_refl _⟩, hloaded⟩, h.keeps.names⟩

theorem Resumes.call {url : List UInt16} {file : InetFile} (h : Resumes path s ⟨url, file⟩)
    {a : Call} (ha : ∀ c ∈ a.feeds, c.Promised) (hname : Along feedStep NameOk file a.feeds) :
    Resumes path s ⟨url, callStep file a⟩ := by
  obtain ⟨⟨k, hk, hloaded⟩, hnames⟩ := h
  exact ⟨⟨k, hk.call ha, hloaded⟩, hnames.call hk.laid ha hname⟩

/-! ## What the folder keeps -/

/-- Everything downloaded stays downloaded. -/
structure Grows (d d' : Downloads) : Prop where
  sizes : ∀ q ∈ d.sizes, q ∈ d'.sizes
  blocks : ∀ q ∈ d.blocks, q ∈ d'.blocks

/-- The invariant of the folder: the cache of every URL for which a size was downloaded is in
it, these URLs have different checksums, and nothing is there for any other URL. -/
structure Filed (path : List UInt16) (s : Hooked) : Prop where
  sized : ∀ q ∈ s.downloads.sizes, ∃ file, Cached path s q.1 file
  apart : ∀ q ∈ s.downloads.sizes, ∀ r ∈ s.downloads.sizes, nameCrc q.1 = nameCrc r.1 → q.1 = r.1
  fresh : ∀ url, (∀ q ∈ s.downloads.sizes, nameCrc q.1 ≠ nameCrc url) →
    s.folder (configName path url) = []
  opened : ∀ name, ∀ url ∈ s.openedFor name,
    IsFile path url name ∧ ∃ q ∈ s.downloads.sizes, q.1 = url
  delivered : ∀ q ∈ s.delivered, q.2.From fun b => ∃ block ∈ s.downloads.blocksOf q.1, b ∈ block

theorem Grows.mem_blocksOf (h : Grows s.downloads d) (url : List UInt16) :
    ∀ block ∈ s.downloads.blocksOf url, block ∈ d.blocksOf url := by
  intro block hblock
  rw [Hooked.mem_blocksOf] at hblock ⊢
  exact h.blocks _ hblock

/-- What is stored does not go into the folder of a URL with another checksum. -/
theorem Cached.store_other {v : List UInt16} {file : InetFile} (h : Cached path s v file)
    (hm : Resumes path s m) (hd : Grows s.downloads d) (hne : nameCrc v ≠ nameCrc m.url) :
    Cached path (store path { s with active := active, downloads := d, delivered := del } p m) v
      file :=
  ⟨hm.keeps_other (p := p) hne h.keeps, hd.sizes _ h.sized,
    fun f hf => (h.assembled f hf).mono (hd.mem_blocksOf v)⟩

theorem Resumes.cached (hm : Resumes path s m) (hsize : (m.url, m.file.mFilesize) ∈ d.sizes)
    (hfrom : AssembledFrom (d.blocksOf m.url) m.file) :
    Cached path (store path { s with active := active, downloads := d, delivered := del } p m)
      m.url m.file :=
  ⟨hm.keeps (p := p), hsize, hfrom⟩

/-- **Storing a manager** keeps the folder in order, when no other URL with a cache has its
checksum. -/
theorem Filed.store (hs : Filed path s) (hm : Resumes path s m) (hd : Grows s.downloads d)
    (hsizes : ∀ q ∈ d.sizes, q ∈ s.downloads.sizes ∨ q.1 = m.url)
    (hsize : (m.url, m.file.mFilesize) ∈ d.sizes)
    (hfrom : AssembledFrom (d.blocksOf m.url) m.file)
    (hnew : ∀ q ∈ s.downloads.sizes, nameCrc q.1 = nameCrc m.url → q.1 = m.url)
    (hdel : ∀ q ∈ del, q.2.From fun b => ∃ block ∈ d.blocksOf q.1, b ∈ block) :
    Filed path
      (Hooked.store path { s with active := active, downloads := d, delivered := del } p m) := by
  refine ⟨fun q hq => ?_, fun q hq r hr heq => ?_, fun url hurl => ?_, fun name url hopen => ?_,
    hdel⟩
  · by_cases hcrc : nameCrc q.1 = nameCrc m.url
    · have hq1 : q.1 = m.url := by
        rcases hsizes q hq with hq | hq
        · exact hnew q hq hcrc
        · exact hq
      rw [hq1]
      exact ⟨m.file, hm.cached hsize hfrom⟩
    · rcases hsizes q hq with hq | hq
      · obtain ⟨file, hfile⟩ := hs.sized q hq
        exact ⟨file, hfile.store_other hm hd hcrc⟩
      · exact absurd (congrArg nameCrc hq) hcrc
  · rcases hsizes q hq with hq | hq
    · rcases hsizes r hr with hr | hr
      · exact hs.apart q hq r hr heq
      · rw [hr] at heq ⊢
        exact hnew q hq heq
    · rw [hq] at heq ⊢
      rcases hsizes r hr with hr | hr
      · exact (hnew r hr heq.symm).symm
      · exact hr.symm
  · have hother : nameCrc url ≠ nameCrc m.url := fun heq => hurl _ hsize heq.symm
    have hnot : ¬IsFile path m.url (configName path url) :=
      fun hfile => hother (IsFile.crc_eq (Or.inl rfl) hfile)
    have hfolder := hm.folder_eq (p := p) hnot
    exact hfolder.trans (hs.fresh url fun q hq => hurl q (hd.sizes q hq))
  · rw [Hooked.store] at hopen
    dsimp only at hopen
    split at hopen
    · next hname =>
      rcases List.mem_cons.mp hopen with rfl | hopen
      · exact ⟨hm.isFile hname, _, hsize, rfl⟩
      · obtain ⟨hfile, q, hq, hurl⟩ := hs.opened name url hopen
        exact ⟨hfile, q, hd.sizes q hq, hurl⟩
    · obtain ⟨hfile, q, hq, hurl⟩ := hs.opened name url hopen
      exact ⟨hfile, q, hd.sizes q hq, hurl⟩

/-! ## Opening a cache -/

/-- What is in the folder for a URL, when no other URL with a cache has its checksum. -/
theorem Filed.ready (hs : Filed path s) {url : List UInt16}
    (hnew : ∀ q ∈ s.downloads.sizes, nameCrc q.1 = nameCrc url → q.1 = url) :
    s.folder (configName path url) = [] ∨ ∃ file, Cached path s url file ∧ file.Flushed := by
  by_cases h : ∃ q ∈ s.downloads.sizes, q.1 = url
  · obtain ⟨q, hq, rfl⟩ := h
    obtain ⟨file, hfile⟩ := hs.sized q hq
    rcases hfile.keeps.config_cases with hflushed | ⟨hconfig, -⟩
    · exact Or.inr ⟨file, hfile, hflushed⟩
    · exact Or.inl hconfig
  · exact Or.inl (hs.fresh url fun q hq heq => h ⟨q, hq, hnew q hq heq⟩)

theorem setURL_snd (file : InetFile) (responsecode contentLength : Int) :
    (file.setURL responsecode contentLength).2 = 0 ∨
      (file.setURL responsecode contentLength).2 < 0 := by
  rw [InetFile.setURL]
  split
  · split
    · exact Or.inr (show (-2 : Int) < 0 by decide)
    · split
      · exact Or.inr (show (-3 : Int) < 0 by decide)
      · exact Or.inl rfl
  · exact Or.inl rfl

theorem setURL_mFragments (file : InetFile) (responsecode contentLength : Int) :
    (file.setURL responsecode contentLength).1.mFragments = file.mFragments := by
  rw [InetFile.setURL]
  split
  · split
    · rfl
    · split
      · rfl
      · rfl
  · rfl

/-- **A new manager** for a URL, when no other URL with a cache has its checksum: it goes on
from the cache of its URL, or asks for the size. -/
theorem Filed.opening (hs : Filed path s) {url : List UInt16}
    (hnew : ∀ q ∈ s.downloads.sizes, nameCrc q.1 = nameCrc url → q.1 = url)
    (time responsecode contentLength : Int) :
    let file := InetFile.openFile (configName path url) (s.disk path url) time
    let opened := file.setURL responsecode contentLength
    ¬opened.2 < 0 → Resumes path s ⟨url, opened.1⟩ ∧
      AssembledFrom (s.downloads.blocksOf url) opened.1 ∧
      (file.mFilesize ≠ 0 → (url, opened.1.mFilesize) ∈ s.downloads.sizes) := by
  intro file opened hreturned
  have hcstr := cstr_configName path url
  have hready : Ready (configName path url) (s.disk path url) := by
    rcases hs.ready hnew with hnil | ⟨file, hfile, hflushed⟩
    · exact Or.inl hnil
    · exact Or.inr ⟨file, hfile.keeps, hflushed⟩
  have hresumes : Resumes path s ⟨url, opened.1⟩ := by
    rcases hready.opened ⟨time, responsecode, contentLength, [], false⟩ with
      ⟨-, hnames, k, hk, hloaded⟩ | ⟨hne, -⟩
    · rw [hcstr] at hk hloaded
      exact ⟨⟨k, hk, hloaded⟩, hnames⟩
    · rcases setURL_snd file responsecode contentLength with hzero | hneg
      · exact absurd hzero hne
      · exact absurd hneg hreturned
  rcases hs.ready hnew with hnil | ⟨cache, hcache, hflushed⟩
  · have hfile : file = InetFile.create (cstr (configName path url)) time :=
      openFile_of_nil hnil time
    refine ⟨hresumes, ?_, fun hne => absurd ?_ hne⟩
    · intro f hf
      rw [setURL_mFragments, hfile] at hf
      exact absurd hf List.not_mem_nil
    · rw [hfile]
      rfl
  · obtain ⟨hsize, hfragments, -⟩ := hcache.keeps.openFile hflushed time
    refine ⟨hresumes, ?_, fun hne => ?_⟩
    · rw [AssembledFrom, setURL_mFragments, hfragments]
      exact hcache.assembled
    · have hopened : opened.1.mFilesize = cache.mFilesize := by
        rw [← hsize]
        show (InetFile.setURL file responsecode contentLength).1.mFilesize = file.mFilesize
        rw [InetFile.setURL, if_neg hne]
      rw [hopened]
      exact hcache.sized

end store

/-! ## The two loops over the list -/

theorem mem_share {utf : List UInt8} : ∀ {list list' : List ActiveHttpfileListEntry} {p : Nat},
    share utf list = some (p, list') → (∃ e ∈ list, e.manager = p ∧ e.urlUtf = utf) ∧
      ∀ f ∈ list', ∃ e ∈ list, e.manager = f.manager ∧ e.urlUtf = f.urlUtf := by
  intro list list' p h
  obtain ⟨a, e, b, rfl, hurl, hman, rfl⟩ := share_eq_some h
  refine ⟨⟨e, List.mem_append_right _ (List.mem_cons_self ..), hman, hurl⟩, fun f hf => ?_⟩
  rcases ActiveFiles.mem_middle hf with rfl | hf
  · exact ⟨e, List.mem_append_right _ (List.mem_cons_self ..), rfl, rfl⟩
  · exact ⟨f, ActiveFiles.mem_of_mem_append e hf, rfl, rfl⟩

theorem mem_unshare {p : Nat} : ∀ {list : List ActiveHttpfileListEntry},
    ∀ f ∈ (unshare p list).1, ∃ e ∈ list, e.manager = f.manager ∧ e.urlUtf = f.urlUtf := by
  intro list
  induction list with
  | nil => intro f hf; exact absurd hf List.not_mem_nil
  | cons e list ih =>
    intro f hf
    rw [unshare] at hf
    split at hf
    · split at hf
      · exact ⟨f, List.mem_cons_of_mem _ hf, rfl, rfl⟩
      · rcases List.mem_cons.mp hf with rfl | hf
        · exact ⟨e, List.mem_cons_self .., rfl, rfl⟩
        · exact ⟨f, List.mem_cons_of_mem _ hf, rfl, rfl⟩
    · rcases List.mem_cons.mp hf with rfl | hf
      · exact ⟨f, List.mem_cons_self .., rfl, rfl⟩
      · obtain ⟨g, hg, h⟩ := ih f hf
        exact ⟨g, List.mem_cons_of_mem _ hg, h⟩

/-! ## What a call keeps -/

/-- The invariant: a live manager goes on from the cache of its URL, and hooks are on
managers of their URLs. -/
structure Kept (w2utf8 : List UInt16 → List UInt8) (path : List UInt16) (s : Hooked) : Prop
    extends Filed path s where
  active : s.active.Kept w2utf8
  live : ∀ e ∈ s.active.list, ∃ m, s.managers e.manager = some m ∧ e.urlUtf = w2utf8 m.url ∧
    Cached path s m.url m.file
  hooks : ∀ h ∈ s.active.hooks, ∀ m, s.managers h.mCore = some m → m.url = h.url

variable {s : Hooked}

theorem Cached.withActive {url : List UInt16} {file : InetFile} (h : Cached path s url file)
    (active : ActiveFiles) : Cached path { s with active := active } url file :=
  ⟨h.keeps, h.sized, h.assembled⟩

theorem Filed.withActive (hs : Filed path s) (active : ActiveFiles) :
    Filed path { s with active := active } :=
  ⟨fun q hq => (hs.sized q hq).imp fun _ h => h.withActive active, hs.apart, hs.fresh, hs.opened,
    hs.delivered⟩

theorem init_kept : Kept w2utf8 path init := by
  refine ⟨⟨?_, ?_, fun _ _ => rfl, ?_, ?_⟩, ActiveFiles.init_kept, ?_, ?_⟩
  · intro q hq
    exact absurd hq List.not_mem_nil
  · intro q hq
    exact absurd hq List.not_mem_nil
  · intro name url hurl
    exact absurd hurl List.not_mem_nil
  · intro q hq
    exact absurd hq List.not_mem_nil
  · intro e he
    exact absurd he List.not_mem_nil
  · intro h hh
    exact absurd hh List.not_mem_nil

namespace Kept

theorem manager (hs : Kept w2utf8 path s) {h : HTTPHook} (hh : h ∈ s.active.hooks) :
    ∃ e ∈ s.active.list, ∃ m, e.manager = h.mCore ∧ s.managers h.mCore = some m ∧
      m.url = h.url ∧ e.urlUtf = w2utf8 m.url ∧ Cached path s m.url m.file := by
  obtain ⟨e, he, hman, -⟩ := hs.active.listed h hh
  obtain ⟨m, hm, hutf, hcached⟩ := hs.live e he
  rw [hman] at hm
  exact ⟨e, he, m, hman, hm, hs.hooks h hh m hm, hutf, hcached⟩

theorem isolated (hs : Kept w2utf8 path s) : s.Isolated path := by
  refine ⟨fun h hh => ?_, hs.delivered⟩
  obtain ⟨-, -, m, -, hm, hurl, -, hcached⟩ := hs.manager hh
  refine ⟨m, hm, hurl, ?_, ?_, fun name hname url hopen => ?_⟩
  · rw [← hurl]
    exact hcached.sized
  · rw [← hurl]
    exact hcached.assembled
  · obtain ⟨hfile, q, hq, rfl⟩ := hs.opened name url hopen
    rw [← hurl]
    exact hs.apart q hq _ hcached.sized (hfile.crc_eq (hcached.resumes.isFile hname))

/-- A new list, whose entries are old ones but for the counts. -/
theorem withActive (hs : Kept w2utf8 path s) {active : ActiveFiles} (hactive : active.Kept w2utf8)
    (hlist : ∀ f ∈ active.list, ∃ e ∈ s.active.list, e.manager = f.manager ∧ e.urlUtf = f.urlUtf)
    (hhooks : ∀ h ∈ active.hooks, ∀ m, s.managers h.mCore = some m → m.url = h.url) :
    Kept w2utf8 path { s with active := active } := by
  refine ⟨hs.toFiled.withActive active, hactive, fun f hf => ?_, hhooks⟩
  obtain ⟨e, he, hman, hutf⟩ := hlist f hf
  obtain ⟨m, hm, hurl, hcached⟩ := hs.live e he
  rw [hman] at hm
  rw [hutf] at hurl
  exact ⟨m, hm, hurl, hcached.withActive active⟩

theorem destroy (hs : Kept w2utf8 path s) (i : Nat) :
    Kept w2utf8 path { s with active := s.active.destroy i } := by
  refine hs.withActive (hs.active.destroy i) (fun f hf => ?_) fun h hh m hm => ?_
  · rw [ActiveFiles.destroy] at hf
    split at hf
    · exact ⟨f, hf, rfl, rfl⟩
    · exact mem_unshare f hf
  · rw [ActiveFiles.destroy] at hh
    split at hh
    · exact hs.hooks h hh m hm
    · exact hs.hooks h (List.mem_of_mem_eraseIdx hh) m hm

/-- Managers of different URLs that are both in the folder have different checksums. -/
theorem crc_ne (hs : Kept w2utf8 path s) {e f : ActiveHttpfileListEntry} {m n : Manager}
    (he : e ∈ s.active.list) (hf : f ∈ s.active.list) (hne : e.manager ≠ f.manager)
    (hm : e.urlUtf = w2utf8 m.url) (hn : f.urlUtf = w2utf8 n.url)
    (hcm : Cached path s m.url m.file) (hcn : Cached path s n.url n.file) :
    nameCrc m.url ≠ nameCrc n.url := by
  intro hcrc
  have hurl : m.url = n.url := hs.apart _ hcm.sized _ hcn.sized hcrc
  have hutf : e.urlUtf = f.urlUtf := by rw [hm, hn, hurl]
  have hef : e = f := List.inj_on_of_nodup_map hs.active.urls he hf hutf
  exact hne (congrArg _ hef)

/-- **A call on a manager** keeps the invariant. -/
theorem call (hs : Kept w2utf8 path s) {i : Nat} {a : Call} (ha : ∀ c ∈ a.feeds, c.Promised)
    (hname : ∀ hook, s.active.hooks[i]? = some hook → ∀ m, s.managers hook.mCore = some m →
      Along feedStep NameOk m.file a.feeds) : Kept w2utf8 path (s.call path i a) := by
  rw [Hooked.call]
  cases hget : s.active.hooks[i]? with
  | none => exact hs
  | some hook =>
    have hhook := List.mem_of_getElem? hget
    obtain ⟨e, he, m, hman, hm, hurl, hutf, hcached⟩ := hs.manager hhook
    obtain ⟨url, file⟩ := m
    dsimp only at hurl hutf hcached
    subst hurl
    simp only [hm]
    let d : Downloads := ⟨s.downloads.sizes,
      s.downloads.blocks ++ a.feeds.map fun c => (hook.url, c.buf)⟩
    have hlaid : Laid file := hcached.keeps.laid
    have hd : Grows s.downloads d := ⟨fun q hq => hq, fun q hq => List.mem_append_left _ hq⟩
    have hbefore : AssembledFrom (d.blocksOf hook.url) file :=
      fun f hf => (hcached.assembled f hf).mono (hd.mem_blocksOf _)
    have hfed : ∀ c ∈ a.feeds, c.Promised ∧ c.buf ∈ d.blocksOf hook.url := by
      intro c hc
      refine ⟨ha c hc, mem_blocksOf.mpr (List.mem_append_right _ ?_)⟩
      exact List.mem_map.mpr ⟨c, hc, rfl⟩
    have hresumes : Resumes path s ⟨hook.url, callStep file a⟩ :=
      hcached.resumes.call ha (hname hook hget _ hm)
    have hsize : (hook.url, (callStep file a).mFilesize) ∈ d.sizes := by
      rw [callStep_mFilesize hlaid ha]
      exact hcached.sized
    have hfrom : AssembledFrom (d.blocksOf hook.url) (callStep file a) :=
      hbefore.call hlaid hfed
    have hdel : ∀ q ∈ s.delivered ++ delivery hook.url file a,
        q.2.From fun b => ∃ block ∈ d.blocksOf q.1, b ∈ block := by
      intro q hq
      rcases List.mem_append.mp hq with hq | hq
      · intro o b hb
        obtain ⟨block, hblock, hb⟩ := hs.delivered q hq o b hb
        exact ⟨block, hd.mem_blocksOf _ block hblock, hb⟩
      · cases a with
        | feed c => exact absurd hq List.not_mem_nil
        | get pos work now =>
          rw [delivery, Option.mem_toList, Option.map_eq_some_iff] at hq
          obtain ⟨r, hr, rfl⟩ := hq
          exact exists_mem_of_get hbefore hlaid hfed hr
    have hfiled : Filed path (store path
        { s with downloads := d, delivered := s.delivered ++ delivery hook.url file a } hook.mCore
        ⟨hook.url, callStep file a⟩) :=
      hs.toFiled.store hresumes hd (fun q hq => Or.inl hq) hsize hfrom
        (fun q hq heq => hs.apart q hq _ hcached.sized heq) hdel
    refine ⟨hfiled, hs.active, fun f hf => ?_, fun h hh n hn => ?_⟩
    · by_cases hcore : f.manager = hook.mCore
      · have hfe : f = e := by
          refine List.inj_on_of_nodup_map hs.active.managers hf he ?_
          rw [hcore, hman]
        rw [hcore, hfe]
        refine ⟨⟨hook.url, callStep file a⟩, ?_, hutf, hresumes.cached hsize hfrom⟩
        exact Function.update_self ..
      · obtain ⟨n, hn, hnutf, hncached⟩ := hs.live f hf
        refine ⟨n, ?_, hnutf, hncached.store_other hresumes hd ?_⟩
        · rw [← hn]
          exact Function.update_of_ne hcore _ _
        · refine hs.crc_ne (n := ⟨hook.url, file⟩) hf he ?_ hnutf hutf hncached hcached
          rw [hman]
          exact hcore
    · by_cases hcore : h.mCore = hook.mCore
      · have hnm : n = ⟨hook.url, callStep file a⟩ := by
          rw [Hooked.store] at hn
          dsimp only at hn
          rw [hcore, Function.update_self] at hn
          exact (Option.some.inj hn).symm
        rw [hnm]
        rw [← hcore] at hm
        have hurl : hook.url = h.url := hs.hooks h hh _ hm
        exact hurl
      · have hold : s.managers h.mCore = some n := by
          rw [← hn]
          exact (Function.update_of_ne hcore _ _).symm
        exact hs.hooks h hh n hold

theorem add (hs : Kept w2utf8 path s) {m : Manager} {d : Downloads}
    (hnone : ∀ e ∈ s.active.list, e.urlUtf ≠ w2utf8 m.url) (hfits : (w2utf8 m.url).length < urlSize)
    (hm : Resumes path s m) (hd : Grows s.downloads d)
    (hsizes : ∀ q ∈ d.sizes, q ∈ s.downloads.sizes ∨ q.1 = m.url)
    (hsize : (m.url, m.file.mFilesize) ∈ d.sizes)
    (hfrom : AssembledFrom (d.blocksOf m.url) m.file)
    (hnew : ∀ q ∈ s.downloads.sizes, nameCrc q.1 = nameCrc m.url → q.1 = m.url) :
    Kept w2utf8 path (store path
      { s with
        active :=
          { s.active with
            list := s.active.list ++ [⟨1, s.active.created, w2utf8 m.url⟩]
            hooks := s.active.hooks ++ [⟨s.active.created, m.url⟩]
            created := s.active.created + 1 }
        downloads := d } s.active.created m) := by
  have hdel : ∀ q ∈ s.delivered, q.2.From fun b => ∃ block ∈ d.blocksOf q.1, b ∈ block := by
    intro q hq o b hb
    obtain ⟨block, hblock, hb⟩ := hs.delivered q hq o b hb
    exact ⟨block, hd.mem_blocksOf _ block hblock, hb⟩
  refine ⟨hs.toFiled.store hm hd hsizes hsize hfrom hnew hdel, hs.active.add hnone hfits,
    fun f hf => ?_, fun h hh n hn => ?_⟩
  · rcases List.mem_append.mp hf with hf | hf
    · obtain ⟨n, hn, hutf, hcached⟩ := hs.live f hf
      have hother : nameCrc n.url ≠ nameCrc m.url := by
        intro hcrc
        have hurl : n.url = m.url := hnew _ hcached.sized hcrc
        exact hnone f hf (by rw [hutf, hurl])
      refine ⟨n, ?_, hutf, hcached.store_other hm hd hother⟩
      rw [← hn]
      exact Function.update_of_ne (Nat.ne_of_lt (hs.active.lt_created f hf)) _ _
    · rw [List.mem_singleton.mp hf]
      exact ⟨m, Function.update_self .., rfl, hm.cached hsize hfrom⟩
  · rcases List.mem_append.mp hh with hh | hh
    · obtain ⟨e, he, -, hman, -⟩ := hs.manager hh
      have hlt := hs.active.lt_created e he
      rw [hman] at hlt
      refine hs.hooks h hh n ?_
      rw [← hn]
      exact (Function.update_of_ne (Nat.ne_of_lt hlt) _ _).symm
    · rw [List.mem_singleton.mp hh] at hn ⊢
      have hnm : n = m := by
        rw [Hooked.store] at hn
        dsimp only at hn
        rw [Function.update_self] at hn
        exact (Option.some.inj hn).symm
      rw [hnm]

/-- **A `create`** of a URL that is apart keeps the invariant. -/
theorem create (hs : Kept w2utf8 path s) {url : List UInt16} (hfits : (w2utf8 url).length < urlSize)
    (hmanagers : ∀ e ∈ s.active.list, ∀ m, s.managers e.manager = some m →
      w2utf8 m.url = w2utf8 url → m.url = url)
    (hnew : ∀ q ∈ s.downloads.sizes, nameCrc q.1 = nameCrc url → q.1 = url)
    (time responsecode contentLength : Int) :
    ∃ t, s.create w2utf8 path url time responsecode contentLength = some t ∧
      Kept w2utf8 path t := by
  rw [Hooked.create]
  cases hshare : share (w2utf8 url) s.active.list with
  | some r =>
    obtain ⟨p, list⟩ := r
    obtain ⟨⟨e, he, hman, hutf⟩, hlist⟩ := mem_share hshare
    rw [ActiveFiles.create, hshare]
    refine ⟨_, rfl, hs.withActive (hs.active.share hshare) hlist fun h hh m hm => ?_⟩
    rcases List.mem_append.mp hh with hh | hh
    · exact hs.hooks h hh m hm
    · rw [List.mem_singleton.mp hh] at hm ⊢
      rw [← hman] at hm
      obtain ⟨n, hn, hnutf, -⟩ := hs.live e he
      rw [hm] at hn
      cases hn
      exact hmanagers e he m hm (hnutf.symm.trans hutf)
  | none =>
    have hnone := share_eq_none.mp hshare
    -- a live manager that has the config file open would be one of this URL
    have hidle : s.inUse path url = false := by
      rw [inUse, List.any_eq_false]
      intro e he hany
      obtain ⟨m, hm, hutf, hcached⟩ := hs.live e he
      rw [hm, Option.any_some, decide_eq_true_eq] at hany
      have hurl := hnew _ hcached.sized (nameCrc_eq_of_configName_eq hany)
      exact hnone e he (by rw [hutf]; exact congrArg w2utf8 hurl)
    rw [hidle, if_neg Bool.false_ne_true]
    dsimp only
    generalize hopened : (InetFile.openFile (configName path url) (s.disk path url) time).setURL
      responsecode contentLength = opened
    have hopening := hs.toFiled.opening hnew time responsecode contentLength
    dsimp only at hopening
    rw [hopened] at hopening
    rw [ActiveFiles.create, hshare]
    dsimp only
    rw [if_neg (Nat.not_le.mpr hfits)]
    by_cases hneg : opened.2 < 0
    · rw [if_pos hneg, Option.map_some, if_pos hneg]
      refine ⟨_, rfl, hs.withActive hs.active.fail (fun f hf => ⟨f, hf, rfl, rfl⟩) hs.hooks⟩
    · rw [if_neg hneg, Option.map_some, if_neg hneg]
      obtain ⟨hresumes, hfrom, hold⟩ := hopening hneg
      refine ⟨_, rfl, hs.add (m := ⟨url, opened.1⟩) hnone hfits hresumes ⟨?_, fun q hq => hq⟩ ?_ ?_
        hfrom hnew⟩
      · intro q hq
        dsimp only
        split
        · exact List.mem_append_left _ hq
        · exact hq
      · intro q hq
        dsimp only at hq
        split at hq
        · rcases List.mem_append.mp hq with hq | hq
          · exact Or.inl hq
          · rw [List.mem_singleton.mp hq]
            exact Or.inr rfl
        · exact Or.inl hq
      · dsimp only
        split
        · exact List.mem_append_right _ (List.mem_singleton_self _)
        · next hne => exact hold hne

end Kept

theorem kept_step {o : Option Hooked} {op : HookOp} (ho : ∃ s ∈ o, Kept w2utf8 path s)
    (hop : Separate w2utf8 o op) : ∃ s ∈ step w2utf8 path o op, Kept w2utf8 path s := by
  obtain ⟨s, rfl, hs⟩ := ho
  cases op with
  | create url time responsecode contentLength =>
    obtain ⟨hfits, hmanagers, hnew⟩ := hop s rfl
    exact hs.create hfits hmanagers hnew time responsecode contentLength
  | call i a => exact ⟨_, rfl, hs.call a.2 (hop s rfl)⟩
  | destroy i => exact ⟨_, rfl, hs.destroy i⟩

/-- **Caches are isolated** as long as every `create` is separate. -/
theorem isolated_of_separate (w2utf8 : List UInt16 → List UInt8) (path : List UInt16)
    (ops : List HookOp) (h : Along (step w2utf8 path) (Separate w2utf8) (some init) ops) (k : Nat) :
    ∃ s ∈ run (step w2utf8 path) (some init) (ops.take k), s.Isolated path := by
  obtain ⟨s, hs, hkept⟩ := along_run (fun o => ∃ s ∈ o, Kept w2utf8 path s)
    (fun _ _ ho hop => kept_step ho hop) (ops.take k) _ ⟨init, rfl, init_kept⟩ (along_take h k)
  exact ⟨s, hs, hkept.isolated⟩

/-- `C:\\d\\cache\\`. -/
def cacheFolder : List UInt16 := [67, 58, 92, 100, 92, 99, 97, 99, 104, 101, 92]

/-- The conversion of a URL of ASCII characters. -/
def ascii (url : List UInt16) : List UInt8 := url.map UInt16.toUInt8

/-- `http://h/w6ltki`. -/
def urlV : List UInt16 := [104, 116, 116, 112, 58, 47, 47, 104, 47, 119, 54, 108, 116, 107, 105]

/-- `http://h/hwebxf`. -/
def urlU : List UInt16 := [104, 116, 116, 112, 58, 47, 47, 104, 47, 104, 119, 101, 98, 120, 102]

def twoUrls : List HookOp :=
  [.create [97] 0 200 5, .call 0 ⟨.feed ⟨[1, 2], ⟨0, 2⟩⟩, by decide⟩, .create [98] 0 200 7,
    .destroy 0, .create [97] 0 404 0]

theorem isolated_of_separate_two :
    ∃ s ∈ run (step ascii cacheFolder) (some init) (twoUrls.take 5), s.Isolated cacheFolder :=
  isolated_of_separate ascii cacheFolder twoUrls (by decide +kernel) 5

/-- **The cache of another URL.**  The file is 5 bytes long at one URL, and downloaded; its
cache is taken for that of the other one, whose name has the same checksum, and nobody asks. -/
theorem size_of_another_url : ¬ ∃ s ∈ run (step ascii cacheFolder) (some init)
    [.create urlV 0 200 5, .call 0 ⟨.feed ⟨[1, 2, 3, 4, 5], ⟨0, 5⟩⟩, by decide⟩, .destroy 0,
      .create urlU 0 200 7], s.Isolated cacheFolder := by
  rintro ⟨s, hs, hisolated⟩
  have hsize : ((run (step ascii cacheFolder) (some init)
      [.create urlV 0 200 5, .call 0 ⟨.feed ⟨[1, 2, 3, 4, 5], ⟨0, 5⟩⟩, by decide⟩, .destroy 0,
        .create urlU 0 200 7]).any fun s =>
        s.active.hooks.any fun h => (s.managers h.mCore).any fun m =>
          (h.url, m.file.mFilesize) ∉ s.downloads.sizes) = true := by decide +kernel
  rw [hs, Option.any_some, List.any_eq_true] at hsize
  obtain ⟨h, hh, hany⟩ := hsize
  obtain ⟨m, hm, -, hmem, -⟩ := hisolated.own h hh
  rw [hm, Option.any_some, decide_eq_true_eq] at hany
  exact hany hmem

end Hooked

end DWindow.Hook
