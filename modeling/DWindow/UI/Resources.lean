import DWindow.Lib.Runs
import Mathlib.Data.List.Nodup
import Mathlib.Logic.Function.Basic

/-!
# GPU resources

`dwindow.lua`: a resource is a table with a native handle.  Every resource is in
`all_gpu_objects` from its making until `releaseCache(false)`, a bitmap in `bitmapcache` as well.
`release` and `releaseCache` set the handle that they release to `nil`; `unload_bitmap` does not,
and leaves the resource in `all_gpu_objects`, so that `releaseCache` releases its handle once
more.  `released_once_iff` says that this is the only way to a second release.
-/

namespace DWindow.UI

open Function Runs

/-- The field `handle`: `nil`, the `false` of a loader that has failed, or a native handle. -/
inductive Handle
  | nil
  | failed
  | native (n : Nat)
deriving DecidableEq

/-- What a native loader returns: a handle and a size, or `false` and a message. -/
inductive Loaded
  | ok (handle : Nat) (width height : Int)
  | failed (message : String)
deriving DecidableEq

/-- A table of `resource_base`. -/
structure Resource (File : Type*) where
  handle : Handle
  width : Option Int
  height : Option Int
  filename : Option File
  errorMsg : Option String
  /-- left, right, top, bottom -/
  roi : Option (Int × Int × Int × Int)

/-- The resources by the order of their making, `all_gpu_objects`, `bitmapcache`, the handles
that resources were made with, and those passed to `dx9.release_resource_core`. -/
structure Resources (File : Type*) where
  objects : List (Resource File)
  allGpuObjects : List Nat
  bitmapcache : File → Option Nat
  returned : List Nat
  released : List Nat

/-- The calls, each with what the native side returns in it. -/
inductive ResourceCall (File : Type*)
  | create (handle : Handle) (width height : Option Int)
  | commit (object : Nat)
  | decommit (object : Nat)
  | release (object : Nat)
  | drawText (loaded : Loaded)
  | getBitmap (file : File) (reload : Bool) (loaded : Loaded)
  | unloadBitmap (file : File) (isDecommit : Bool)
  | releaseCache (isDecommit : Bool)

def Handle.toList : Handle → List Nat
  | .native n => [n]
  | _ => []

def Loaded.handle : Loaded → Handle
  | .ok n _ _ => .native n
  | .failed _ => .failed

namespace Resources

variable {File : Type*} [DecidableEq File] (s : Resources File)

def init : Resources File := ⟨[], [], fun _ => none, [], []⟩

def handle (i : Nat) : Handle := (s.objects[i]?.map Resource.handle).getD .nil

def modify (i : Nat) (f : Resource File → Resource File) : Resources File :=
  { s with objects := s.objects.modify i f }

/-- `dx9.release_resource_core` of the handle of a resource. -/
def releaseCore (i : Nat) : Resources File :=
  { s with released := s.released ++ (s.handle i).toList }

/-- `resource_base:create`. -/
def createObject (o : Resource File) : Resources File :=
  { s with
    objects := s.objects ++ [o]
    allGpuObjects := s.allGpuObjects ++ [s.objects.length]
    returned := s.returned ++ o.handle.toList }

def create (handle : Handle) (width height : Option Int) : Resources File :=
  s.createObject ⟨handle, width, height, none, none, none⟩

def release (i : Nat) : Resources File :=
  (s.releaseCore i).modify i fun o => { o with handle := .nil }

def drawText : Loaded → Resources File
  | .ok n width height => s.create (.native n) width height
  | .failed _ => s

/-- The body of the loop of `releaseCache(false)`. -/
def releaseEach (i : Nat) : Resources File :=
  (s.releaseCore i).modify i fun o =>
    { o with handle := .nil, width := some 0, height := some 0 }

def releaseCache (isDecommit : Bool) : Resources File :=
  if isDecommit then s
  else { s.allGpuObjects.foldl releaseEach s with
    allGpuObjects := [], bitmapcache := fun _ => none }

def unloadBitmap (file : File) (isDecommit : Bool) : Resources File :=
  match s.bitmapcache file with
  | none => s
  | some i =>
    if isDecommit then s
    else { s.releaseCore i with bitmapcache := update s.bitmapcache file none }

/-- The load in `get_bitmap`; after a failure the width, which is the message then, becomes
`nil`. -/
def load (file : File) (loaded : Loaded) : Resources File :=
  let o : Resource File := match loaded with
    | .ok n width height => ⟨.native n, width, height, file, none, none⟩
    | .failed message => ⟨.failed, none, none, file, message, none⟩
  { s.createObject o with bitmapcache := update s.bitmapcache file s.objects.length }

/-- The whole bitmap becomes the region of interest. -/
def resetRoi (i : Nat) : Resources File := s.modify i fun o => { o with roi := some (0, 0, 0, 0) }

/-- `get_bitmap` and the resource that it returns, with at most `depth` levels of calls. -/
def getBitmap (file : File) (loaded : Loaded) : Nat → Bool → Resources File →
    Resources File × Option Nat
  | 0, _, s => (s, none)
  | depth + 1, reload, s =>
    let s₁ := if reload then s.unloadBitmap file false else s
    let s₂ := if s₁.bitmapcache file = none then s₁.load file loaded else s₁
    match s₂.bitmapcache file with
    | none => (s₂, none)
    | some i =>
      let s₃ := s₂.resetRoi i
      if s₃.handle i = .nil then getBitmap file loaded depth true s₃ else (s₃, some i)

def step : ResourceCall File → Resources File
  | .create handle width height => s.create handle width height
  | .commit _ => s
  | .decommit _ => s
  | .release i => s.release i
  | .drawText loaded => s.drawText loaded
  | .getBitmap file reload loaded => (getBitmap file loaded 2 reload s).1
  | .unloadBitmap file isDecommit => s.unloadBitmap file isDecommit
  | .releaseCache isDecommit => s.releaseCache isDecommit

/-- **Released once**: no handle was passed twice, and after `releaseCache(false)` every handle
has been passed exactly once. -/
structure Once : Prop where
  nodup : s.released.Nodup
  all : ∀ n ∈ s.returned, (s.releaseCache false).released.count n = 1

/-- The handle is `nil`, `false` or a new one. -/
def New (handle : Handle) : Prop := ∀ n ∈ handle.toList, n ∉ s.returned

/-- No bitmap of the file is cached that has a handle. -/
def Unloaded (file : File) : Prop := ∀ i ∈ s.bitmapcache file, (s.handle i).toList = []

/-- `get_bitmap` comes to the loader. -/
def Loads (file : File) (reload : Bool) : Prop :=
  reload = true ∨ ∀ i ∈ s.bitmapcache file, s.handle i = .nil

/-- A native handle is new when a resource is made with it, and no bitmap that has its handle
yet is unloaded or reloaded. -/
def Orderly : ResourceCall File → Prop
  | .create handle _ _ => s.New handle
  | .drawText loaded => s.New loaded.handle
  | .getBitmap file reload loaded =>
    (reload = true → s.Unloaded file) ∧ (s.Loads file reload → s.New loaded.handle)
  | .unloadBitmap file isDecommit => isDecommit = false → s.Unloaded file
  | _ => True

/-! ## Handles in a changed state -/

variable {s : Resources File} {t : Resources File}

section Handles

omit [DecidableEq File]

theorem handle_createObject (o : Resource File) (i : Nat) :
    (s.createObject o).handle i = if i = s.objects.length then o.handle else s.handle i := by
  change (((s.objects ++ [o])[i]?).map Resource.handle).getD .nil = _
  split
  · next heq =>
    subst heq
    rw [List.getElem?_concat_length]
    rfl
  · next hne =>
    rcases Nat.lt_or_gt_of_ne hne with hlt | hgt
    · rw [List.getElem?_append_left hlt]
      rfl
    · rw [handle, List.getElem?_eq_none (by rw [List.length_append]; exact hgt),
        List.getElem?_eq_none (Nat.le_of_lt hgt)]

theorem handle_resetRoi (i j : Nat) : (s.resetRoi i).handle j = s.handle j := by
  change (((s.objects.modify i _)[j]?).map Resource.handle).getD .nil = _
  rw [List.getElem?_modify, handle]
  cases s.objects[j]? with
  | none => split <;> rfl
  | some o =>
    change (Resource.handle (if i = j then _ else o)) = o.handle
    split <;> rfl

theorem handle_modify_nil {f : Resource File → Resource File} (hf : ∀ o, (f o).handle = .nil)
    (i j : Nat) : (s.modify i f).handle j = if j = i then .nil else s.handle j := by
  change (((s.objects.modify i f)[j]?).map Resource.handle).getD .nil = _
  rw [List.getElem?_modify, handle]
  cases s.objects[j]? with
  | none => split <;> split <;> rfl
  | some o =>
    change (if i = j then f o else o).handle = if j = i then .nil else o.handle
    by_cases heq : i = j
    · rw [if_pos heq, if_pos heq.symm]
      exact hf o
    · rw [if_neg heq, if_neg (Ne.symm heq)]

theorem mem_toList {h : Handle} {n : Nat} : n ∈ h.toList ↔ h = .native n := by
  cases h with
  | nil => exact iff_of_false List.not_mem_nil nofun
  | failed => exact iff_of_false List.not_mem_nil nofun
  | native m => simp [Handle.toList, eq_comm]

/-- The handles passed so far and those that `releaseCache(false)` passes next. -/
def releasedAll (s : Resources File) : List Nat :=
  s.released ++ s.allGpuObjects.flatMap fun i => (s.handle i).toList

theorem handle_releaseEach (i j : Nat) :
    (s.releaseEach i).handle j = if j = i then .nil else s.handle j :=
  handle_modify_nil (fun _ => rfl) i j

/-- The loop passes the handles as they are before it, since each resource has its turn once. -/
theorem foldl_releaseEach : ∀ (l : List Nat) (s : Resources File), l.Nodup →
    (l.foldl releaseEach s).released =
      s.released ++ l.flatMap (fun i => (s.handle i).toList) ∧
    ∀ j, (l.foldl releaseEach s).handle j = if j ∈ l then .nil else s.handle j := by
  intro l
  induction l with
  | nil => exact fun s _ => ⟨(List.append_nil _).symm, fun j => rfl⟩
  | cons i l ih =>
    intro s hl
    obtain ⟨hi, hl⟩ := List.nodup_cons.mp hl
    obtain ⟨hreleased, hhandle⟩ := ih (s.releaseEach i) hl
    have hsame : l.flatMap (fun j => ((s.releaseEach i).handle j).toList) =
        l.flatMap fun j => (s.handle j).toList := by
      refine List.flatMap_congr fun j hj => ?_
      have hne : j ≠ i := fun heq => hi (by rwa [heq] at hj)
      rw [handle_releaseEach, if_neg hne]
    refine ⟨?_, fun j => ?_⟩
    · rw [List.foldl_cons, hreleased, hsame, List.flatMap_cons, ← List.append_assoc]
      rfl
    · rw [List.foldl_cons, hhandle, handle_releaseEach]
      by_cases hj : j ∈ l
      · rw [if_pos hj, if_pos (List.mem_cons_of_mem _ hj)]
      · rw [if_neg hj]
        by_cases heq : j = i
        · rw [if_pos heq, if_pos (heq ▸ List.mem_cons_self ..)]
        · rw [if_neg heq, if_neg fun hmem => hj ((List.mem_cons.mp hmem).resolve_left heq)]

theorem releaseCache_released (hnodup : s.allGpuObjects.Nodup) :
    (s.releaseCache false).released = s.releasedAll :=
  (foldl_releaseEach _ s hnodup).1

/-- Two states that differ in what no release looks at. -/
structure Alike (s t : Resources File) : Prop where
  length : t.objects.length = s.objects.length
  handle : ∀ i, t.handle i = s.handle i
  all : t.allGpuObjects = s.allGpuObjects
  returned : t.returned = s.returned
  released : t.released = s.released

theorem Alike.refl (s : Resources File) : s.Alike s := ⟨rfl, fun _ => rfl, rfl, rfl, rfl⟩

theorem Alike.trans {u : Resources File} (h : s.Alike t) (g : t.Alike u) : s.Alike u where
  length := g.length.trans h.length
  handle i := (g.handle i).trans (h.handle i)
  all := g.all.trans h.all
  returned := g.returned.trans h.returned
  released := g.released.trans h.released

theorem Alike.createObject (h : s.Alike t) (o : Resource File) :
    (s.createObject o).Alike (t.createObject o) where
  length := by
    change (t.objects ++ [o]).length = (s.objects ++ [o]).length
    rw [List.length_append, List.length_append, h.length]
  handle i := by rw [handle_createObject, handle_createObject, h.length, h.handle]
  all := by
    change t.allGpuObjects ++ [t.objects.length] = s.allGpuObjects ++ [s.objects.length]
    rw [h.all, h.length]
  returned := by
    change t.returned ++ o.handle.toList = s.returned ++ o.handle.toList
    rw [h.returned]
  released := h.released

theorem Alike.releasedAll (h : s.Alike t) : t.releasedAll = s.releasedAll := by
  simp only [Resources.releasedAll, h.released, h.all, h.handle]

theorem alike_resetRoi (i : Nat) : s.Alike (s.resetRoi i) where
  length := List.length_modify ..
  handle := handle_resetRoi i
  all := rfl
  returned := rfl
  released := rfl

end Handles

/-! ## What the calls come to -/

theorem load_alike (file : File) (loaded : Loaded) : ∃ o : Resource File,
    o.handle = loaded.handle ∧ (s.createObject o).Alike (s.load file loaded) ∧
      (s.load file loaded).bitmapcache file = some s.objects.length := by
  cases loaded with
  | ok n width height => exact ⟨_, rfl, ⟨rfl, fun _ => rfl, rfl, rfl, rfl⟩, update_self ..⟩
  | failed message => exact ⟨_, rfl, ⟨rfl, fun _ => rfl, rfl, rfl, rfl⟩, update_self ..⟩

theorem loaded_ne_nil (loaded : Loaded) : loaded.handle ≠ .nil := by
  cases loaded <;> nofun

theorem unloadBitmap_cached (file : File) :
    (s.unloadBitmap file false).bitmapcache file = none := by
  unfold unloadBitmap
  split
  · assumption
  · exact update_self ..

/-- `get_bitmap` with nothing cached loads and returns, at any depth. -/
theorem getBitmap_none {file : File} (loaded : Loaded) (depth : Nat) (reload : Bool)
    (h : (if reload then s.unloadBitmap file false else s).bitmapcache file = none) :
    ∃ o : Resource File, o.handle = loaded.handle ∧
      ((if reload then s.unloadBitmap file false else s).createObject o).Alike
        (getBitmap file loaded (depth + 1) reload s).1 ∧
      (getBitmap file loaded (depth + 1) reload s).2.isSome := by
  generalize hs : (if reload then s.unloadBitmap file false else s) = s₁ at h
  obtain ⟨o, ho, halike, hcached⟩ := load_alike (s := s₁) file loaded
  have hhandle : ((s₁.load file loaded).resetRoi s₁.objects.length).handle
      s₁.objects.length ≠ .nil := by
    rw [handle_resetRoi, halike.handle, handle_createObject, if_pos rfl, ho]
    exact loaded_ne_nil loaded
  refine ⟨o, ho, ?_⟩
  simp only [getBitmap, hs, h, if_true, hcached, if_neg hhandle]
  exact ⟨halike.trans (alike_resetRoi _), rfl⟩

/-- **`get_bitmap` that loads** is an unload and the making of a resource. -/
theorem getBitmap_loads {file : File} (loaded : Loaded) {reload : Bool}
    (h : s.Loads file reload) : ∃ o : Resource File, o.handle = loaded.handle ∧
      ((s.unloadBitmap file false).createObject o).Alike (getBitmap file loaded 2 reload s).1 ∧
      (getBitmap file loaded 2 reload s).2.isSome := by
  cases reload with
  | true => exact getBitmap_none loaded 1 true (unloadBitmap_cached file)
  | false =>
    have hnil := h.resolve_left nofun
    cases hcached : s.bitmapcache file with
    | none =>
      have hsame : s.unloadBitmap file false = s := by
        rw [unloadBitmap, hcached]
      obtain ⟨o, ho, halike, hsome⟩ := getBitmap_none (s := s) loaded 1 false hcached
      exact ⟨o, ho, hsame.symm ▸ halike, hsome⟩
    | some i =>
      -- the cached resource has no handle any more: the bitmap is loaded afresh
      have hi : (s.resetRoi i).handle i = .nil := by
        rw [handle_resetRoi]
        exact hnil i hcached
      have hfirst : getBitmap file loaded 2 false s =
          getBitmap file loaded 1 true (s.resetRoi i) := by
        rw [getBitmap]
        simp only [Bool.false_eq_true, if_false, hcached, reduceCtorEq]
        exact if_pos hi
      obtain ⟨o, ho, halike, hsome⟩ := getBitmap_none (s := s.resetRoi i) loaded 0
        true (unloadBitmap_cached file)
      rw [hfirst]
      refine ⟨o, ho, Alike.trans (Alike.createObject ?_ o) halike, hsome⟩
      have hcached' : (s.resetRoi i).bitmapcache file = some i := hcached
      have hreset := alike_resetRoi (s := s) i
      rw [if_pos rfl, unloadBitmap, unloadBitmap, hcached, hcached']
      refine ⟨hreset.length, hreset.handle, rfl, rfl, ?_⟩
      change s.released ++ ((s.resetRoi i).handle i).toList = s.released ++ (s.handle i).toList
      rw [handle_resetRoi]

theorem getBitmap_cached {file : File} (loaded : Loaded) {reload : Bool}
    (h : ¬s.Loads file reload) : s.Alike (getBitmap file loaded 2 reload s).1 ∧
      (getBitmap file loaded 2 reload s).2.isSome := by
  rw [Loads, not_or] at h
  obtain ⟨hreload, hcached⟩ := h
  obtain ⟨i, hi, hne⟩ : ∃ i, s.bitmapcache file = some i ∧ s.handle i ≠ .nil := by
    by_contra hall
    exact hcached fun i hi => by_contra fun hne => hall ⟨i, hi, hne⟩
  have hne' : (s.resetRoi i).handle i ≠ .nil := by
    rw [handle_resetRoi]
    exact hne
  rw [getBitmap]
  simp only [if_neg hreload, hi, reduceCtorEq, if_false, if_neg hne']
  exact ⟨alike_resetRoi i, rfl⟩

/-! ## The invariant -/

/-- The invariant: a resource that has a native handle is in `all_gpu_objects` and has it alone,
the handle has not been released, and every handle that is in no resource has. -/
structure Inv (s : Resources File) : Prop where
  nodupAll : s.allGpuObjects.Nodup
  bound : ∀ i ∈ s.allGpuObjects, i < s.objects.length
  live : ∀ i n, s.handle i = .native n → i ∈ s.allGpuObjects
  alone : ∀ i j n, s.handle i = .native n → s.handle j = .native n → i = j
  returned : ∀ n, n ∈ s.returned ↔ n ∈ s.released ∨ ∃ i, s.handle i = .native n
  dead : ∀ n ∈ s.released, ∀ i, s.handle i ≠ .native n
  nodup : s.released.Nodup

section Keeps

omit [DecidableEq File]

theorem Inv.alike (h : s.Inv) (g : s.Alike t) : t.Inv where
  nodupAll := g.all ▸ h.nodupAll
  bound i hi := g.length ▸ h.bound i (g.all ▸ hi)
  live i n hi := g.all ▸ h.live i n (g.handle i ▸ hi)
  alone i j n hi hj := h.alone i j n (g.handle i ▸ hi) (g.handle j ▸ hj)
  returned n := by simp only [g.returned, g.released, g.handle, h.returned]
  dead n hn i := g.handle i ▸ h.dead n (g.released ▸ hn) i
  nodup := g.released ▸ h.nodup

theorem Inv.length_not_mem (h : s.Inv) : s.objects.length ∉ s.allGpuObjects :=
  fun hmem => Nat.lt_irrefl _ (h.bound _ hmem)

/-- **The making of a resource** keeps the invariant, when the handle is new. -/
theorem Inv.createObject (h : s.Inv) {o : Resource File} (hnew : s.New o.handle) :
    (s.createObject o).Inv where
  nodupAll := by
    refine List.nodup_append.mpr ⟨h.nodupAll, List.nodup_singleton _, fun i hi j hj heq => ?_⟩
    rw [List.mem_singleton] at hj
    exact h.length_not_mem (by rwa [heq, hj] at hi)
  bound i hi := by
    have hlength : (s.createObject o).objects.length = s.objects.length + 1 := List.length_append
    rw [hlength]
    rcases List.mem_append.mp hi with hi | hi
    · exact Nat.lt_succ_of_lt (h.bound i hi)
    · rw [List.mem_singleton.mp hi]
      exact Nat.lt_succ_self _
  live i n hi := by
    rw [handle_createObject] at hi
    split at hi
    · next heq => exact List.mem_append_right _ (List.mem_singleton.mpr heq)
    · exact List.mem_append_left _ (h.live i n hi)
  alone i j n hi hj := by
    -- a handle of an earlier resource is not new
    have hold : ∀ k, s.handle k = .native n → o.handle ≠ .native n := fun k hk ho =>
      hnew n (mem_toList.mpr ho) ((h.returned n).mpr (.inr ⟨k, hk⟩))
    rw [handle_createObject] at hi hj
    split at hi <;> split at hj
    · next hi' hj' => exact hi'.trans hj'.symm
    · exact absurd hi (hold j hj)
    · exact absurd hj (hold i hi)
    · exact h.alone i j n hi hj
  returned n := by
    have hmem : n ∈ (s.createObject o).returned ↔ n ∈ s.returned ∨ o.handle = .native n :=
      List.mem_append.trans (or_congr_right mem_toList)
    rw [hmem, h.returned, or_assoc]
    refine or_congr_right ⟨?_, ?_⟩
    · rintro (⟨i, hi⟩ | ho)
      · have hne : i ≠ s.objects.length := fun heq => h.length_not_mem (heq ▸ h.live i n hi)
        exact ⟨i, by rw [handle_createObject, if_neg hne, hi]⟩
      · exact ⟨s.objects.length, by rw [handle_createObject, if_pos rfl, ho]⟩
    · rintro ⟨i, hi⟩
      rw [handle_createObject] at hi
      split at hi
      · exact .inr hi
      · exact .inl ⟨i, hi⟩
  dead n hn i hi := by
    rw [handle_createObject] at hi
    split at hi
    · exact hnew n (mem_toList.mpr hi) ((h.returned n).mpr (.inl hn))
    · exact h.dead n hn i hi
  nodup := h.nodup

/-- **A release that sets the handle to `nil`** keeps the invariant. -/
theorem Inv.clear (h : s.Inv) {i : Nat} (hlength : t.objects.length = s.objects.length)
    (hhandle : ∀ j, t.handle j = if j = i then .nil else s.handle j)
    (hall : t.allGpuObjects = s.allGpuObjects) (hreturned : t.returned = s.returned)
    (hreleased : t.released = s.released ++ (s.handle i).toList) : t.Inv := by
  have hold : ∀ j n, t.handle j = .native n → j ≠ i ∧ s.handle j = .native n := by
    intro j n hj
    rw [hhandle] at hj
    split at hj
    · cases hj
    · next hne => exact ⟨hne, hj⟩
  have hmem : ∀ n, n ∈ t.released ↔ n ∈ s.released ∨ s.handle i = .native n := fun n => by
    rw [hreleased, List.mem_append, mem_toList]
  refine ⟨hall ▸ h.nodupAll, fun j hj => hlength ▸ h.bound j (hall ▸ hj),
    fun j n hj => hall ▸ h.live j n (hold j n hj).2,
    fun j k n hj hk => h.alone j k n (hold j n hj).2 (hold k n hk).2,
    fun n => ?_, fun n hn j hj => ?_, ?_⟩
  · rw [hreturned, h.returned, hmem, or_assoc]
    refine or_congr_right ⟨?_, ?_⟩
    · rintro ⟨j, hj⟩
      by_cases heq : j = i
      · exact .inl (heq ▸ hj)
      · exact .inr ⟨j, by rw [hhandle, if_neg heq, hj]⟩
    · rintro (hi | ⟨j, hj⟩)
      · exact ⟨i, hi⟩
      · exact ⟨j, (hold j n hj).2⟩
  · obtain ⟨hne, hj⟩ := hold j n hj
    rcases (hmem n).mp hn with hn | hn
    · exact h.dead n hn j hj
    · exact hne (h.alone j i n hj hn)
  · rw [hreleased]
    cases hi : s.handle i with
    | nil => simpa [Handle.toList] using h.nodup
    | failed => simpa [Handle.toList] using h.nodup
    | native n =>
      refine List.nodup_append.mpr ⟨h.nodup, List.nodup_singleton _, fun m hm k hk heq => ?_⟩
      exact h.dead m hm i (by rw [hi, heq, List.mem_singleton.mp hk])

theorem Inv.release (h : s.Inv) (i : Nat) : (s.release i).Inv :=
  h.clear (List.length_modify ..) (handle_modify_nil (fun _ => rfl) i) rfl rfl rfl

theorem Inv.foldl (h : s.Inv) (l : List Nat) : (l.foldl releaseEach s).Inv ∧
    (l.foldl releaseEach s).returned = s.returned ∧
    (l.foldl releaseEach s).allGpuObjects = s.allGpuObjects := by
  induction l generalizing s with
  | nil => exact ⟨h, rfl, rfl⟩
  | cons i l ih =>
    exact ih (h.clear (i := i) (List.length_modify ..) (handle_releaseEach i) rfl rfl rfl)

/-- After `releaseCache(false)` no resource has a native handle. -/
theorem Inv.releaseCache_handle (h : s.Inv) (i n : Nat) :
    (s.releaseCache false).handle i ≠ .native n := by
  intro hi
  have hfold := (foldl_releaseEach _ s h.nodupAll).2 i
  rw [show (s.releaseCache false).handle i =
    (s.allGpuObjects.foldl releaseEach s).handle i from rfl, hfold] at hi
  split at hi
  · cases hi
  · next hmem => exact hmem (h.live i n hi)

theorem Inv.releaseCache (h : s.Inv) : (s.releaseCache false).Inv := by
  obtain ⟨hinv, hreturned, -⟩ := h.foldl s.allGpuObjects
  exact ⟨List.nodup_nil, fun i hi => absurd hi List.not_mem_nil,
    fun i n hi => absurd hi (h.releaseCache_handle i n), hinv.alone, hinv.returned, hinv.dead,
    hinv.nodup⟩

/-- **Every handle is released once.** -/
theorem Inv.once (h : s.Inv) : s.Once where
  nodup := h.nodup
  all n hn := by
    have hreturned : (s.releaseCache false).returned = s.returned := (h.foldl s.allGpuObjects).2.1
    have hinv := h.releaseCache
    rcases (hinv.returned n).mp (hreturned ▸ hn) with hmem | ⟨i, hi⟩
    · exact List.count_eq_one_of_mem hinv.nodup hmem
    · exact absurd hi (h.releaseCache_handle i n)

theorem inv_init : (init : Resources File).Inv where
  nodupAll := List.nodup_nil
  bound _ hi := absurd hi List.not_mem_nil
  live _ _ hi := nomatch hi
  alone _ _ _ hi := nomatch hi
  returned _ := ⟨fun hn => absurd hn List.not_mem_nil, fun hn => hn.elim id nofun⟩
  dead _ hn := absurd hn List.not_mem_nil
  nodup := List.nodup_nil

/-! ## What a second release takes -/

theorem releasedAll_createObject (hbound : ∀ i ∈ s.allGpuObjects, i < s.objects.length)
    (o : Resource File) : (s.createObject o).releasedAll = s.releasedAll ++ o.handle.toList := by
  have hold : s.allGpuObjects.flatMap (fun i => ((s.createObject o).handle i).toList) =
      s.allGpuObjects.flatMap fun i => (s.handle i).toList := by
    refine List.flatMap_congr fun i hi => ?_
    rw [handle_createObject, if_neg (Nat.ne_of_lt (hbound i hi))]
  have hnew : ((s.createObject o).handle s.objects.length) = o.handle := by
    rw [handle_createObject, if_pos rfl]
  change s.released ++ (s.allGpuObjects ++ [s.objects.length]).flatMap
    (fun i => ((s.createObject o).handle i).toList) = _
  rw [List.flatMap_append, hold, List.flatMap_singleton, hnew, ← List.append_assoc]
  rfl

theorem two_le_count {n : Nat} {a b : List Nat} (ha : n ∈ a) (hb : n ∈ b) :
    2 ≤ (a ++ b).count n := by
  rw [List.count_append]
  exact Nat.add_le_add (List.count_pos_iff.mpr ha) (List.count_pos_iff.mpr hb)

/-- Every handle that was returned is or will be released. -/
theorem Inv.mem_releasedAll (h : s.Inv) {n : Nat} (hn : n ∈ s.returned) : n ∈ s.releasedAll := by
  rcases (h.returned n).mp hn with hn | ⟨i, hi⟩
  · exact List.mem_append_left _ hn
  · exact List.mem_append_right _ (List.mem_flatMap.mpr ⟨i, h.live i n hi, mem_toList.mpr hi⟩)

theorem Once.count (h : t.Once) (g : s.Alike t) (hnodup : s.allGpuObjects.Nodup) {n : Nat}
    (hn : n ∈ s.returned) : s.releasedAll.count n = 1 := by
  rw [← g.releasedAll, ← releaseCache_released (g.all ▸ hnodup)]
  exact h.all n (g.returned ▸ hn)

/-- **A resource made with an old handle** has it released twice. -/
theorem Inv.new_of_once (h : s.Inv) {o : Resource File} (honce : t.Once)
    (g : (s.createObject o).Alike t) : s.New o.handle := by
  intro n hn hold
  have hnodup : (s.createObject o).allGpuObjects.Nodup := by
    refine List.nodup_append.mpr ⟨h.nodupAll, List.nodup_singleton _, fun i hi j hj heq => ?_⟩
    rw [List.mem_singleton] at hj
    exact h.length_not_mem (by rwa [heq, hj] at hi)
  have hcount := honce.count g hnodup (List.mem_append_left _ hold)
  have htwo := two_le_count (h.mem_releasedAll hold) hn
  rw [← releasedAll_createObject h.bound, hcount] at htwo
  omega

end Keeps

/-! ## Runs -/

/-- An unload of what has no handle any more releases nothing. -/
theorem alike_unloadBitmap {file : File} (h : s.Unloaded file) :
    s.Alike (s.unloadBitmap file false) := by
  unfold unloadBitmap
  split
  · exact Alike.refl s
  · next i hi =>
    refine ⟨rfl, fun _ => rfl, rfl, rfl, ?_⟩
    change s.released ++ (s.handle i).toList = s.released
    rw [h i hi, List.append_nil]

theorem unloadBitmap_decommit (file : File) : s.unloadBitmap file true = s := by
  unfold unloadBitmap
  split <;> rfl

/-- **A bitmap unloaded with its handle**, whatever resource is made next: `releaseCache` releases
the handle once more. -/
theorem Inv.unloaded_of_once (h : s.Inv) {file : File} {l : List Nat} (honce : t.Once)
    (hnodup : t.allGpuObjects.Nodup)
    (hreturned : ∀ n ∈ s.returned, n ∈ t.returned)
    (hreleased : t.releasedAll = (s.unloadBitmap file false).releasedAll ++ l) :
    s.Unloaded file := by
  intro i hi
  cases hhandle : s.handle i with
  | nil => rfl
  | failed => rfl
  | native n =>
    have hn : n ∈ t.returned := hreturned n ((h.returned n).mpr (.inr ⟨i, hhandle⟩))
    have hcount := honce.count (Alike.refl t) hnodup hn
    have hunload : (s.unloadBitmap file false).releasedAll = (s.released ++ [n]) ++
        s.allGpuObjects.flatMap fun i => (s.handle i).toList := by
      rw [unloadBitmap, show s.bitmapcache file = some i from hi]
      change (s.released ++ (s.handle i).toList) ++ _ = _
      rw [hhandle]
      rfl
    have htwo : 2 ≤ (s.unloadBitmap file false).releasedAll.count n := by
      rw [hunload]
      exact two_le_count (List.mem_append_right _ (List.mem_singleton_self n))
        (List.mem_flatMap.mpr ⟨i, h.live i n hhandle, mem_toList.mpr hhandle⟩)
    rw [hreleased, List.count_append] at hcount
    omega

theorem unloadBitmap_frame (file : File) :
    (s.unloadBitmap file false).objects = s.objects ∧
    (s.unloadBitmap file false).allGpuObjects = s.allGpuObjects ∧
    (s.unloadBitmap file false).returned = s.returned := by
  unfold unloadBitmap
  split <;> exact ⟨rfl, rfl, rfl⟩

/-- **One orderly call** keeps the invariant. -/
theorem Inv.step (h : s.Inv) {call : ResourceCall File} (horderly : s.Orderly call) :
    (s.step call).Inv := by
  cases call with
  | create handle width height => exact h.createObject horderly
  | commit object => exact h
  | decommit object => exact h
  | release object => exact h.release object
  | drawText loaded =>
    cases loaded with
    | ok n width height => exact h.createObject horderly
    | failed message => exact h
  | getBitmap file reload loaded =>
    by_cases hloads : s.Loads file reload
    · have hunloaded : s.Unloaded file := by
        rcases hloads with hreload | hnil
        · exact horderly.1 hreload
        · exact fun i hi => by rw [hnil i hi]; rfl
      have hunload := alike_unloadBitmap hunloaded
      obtain ⟨o, ho, halike, -⟩ := getBitmap_loads loaded hloads
      refine Inv.alike (Inv.createObject (h.alike hunload) fun n hn => ?_) halike
      rw [hunload.returned]
      exact horderly.2 hloads n (ho ▸ hn)
    · exact h.alike (getBitmap_cached loaded hloads).1
  | unloadBitmap file isDecommit =>
    cases isDecommit with
    | true =>
      rw [← unloadBitmap_decommit (s := s) file] at h
      exact h
    | false => exact h.alike (alike_unloadBitmap (horderly rfl))
  | releaseCache isDecommit =>
    cases isDecommit with
    | true => exact h
    | false => exact h.releaseCache

/-- **A call after which every handle is released once** was orderly. -/
theorem Inv.orderly (h : s.Inv) {call : ResourceCall File} (honce : (s.step call).Once) :
    s.Orderly call := by
  cases call with
  | create handle width height => exact h.new_of_once honce (Alike.refl _)
  | drawText loaded =>
    cases loaded with
    | ok n width height => exact h.new_of_once honce (Alike.refl _)
    | failed message => exact fun n hn => absurd hn List.not_mem_nil
  | getBitmap file reload loaded =>
    by_cases hloads : s.Loads file reload
    · obtain ⟨o, ho, halike, -⟩ := getBitmap_loads loaded hloads
      obtain ⟨hobjects, hall, hreturned⟩ := unloadBitmap_frame (s := s) file
      have hbound : ∀ i ∈ (s.unloadBitmap file false).allGpuObjects,
          i < (s.unloadBitmap file false).objects.length := by
        rw [hall, hobjects]
        exact h.bound
      have hnodup : ((s.unloadBitmap file false).createObject o).allGpuObjects.Nodup := by
        have hcreate := (h.createObject (o := ⟨.nil, none, none, none, none, none⟩)
          fun n hn => absurd hn List.not_mem_nil).nodupAll
        change ((s.unloadBitmap file false).allGpuObjects ++
          [(s.unloadBitmap file false).objects.length]).Nodup
        rw [hall, hobjects]
        exact hcreate
      have hunloaded : s.Unloaded file := by
        refine h.unloaded_of_once (l := o.handle.toList) honce (halike.all ▸ hnodup)
          (fun n hn => ?_) ?_
        · rw [show (s.step (.getBitmap file reload loaded)).returned = _ from halike.returned]
          exact List.mem_append_left _ (hreturned ▸ hn)
        · exact halike.releasedAll.trans (releasedAll_createObject hbound o)
      refine ⟨fun _ => hunloaded, fun _ n hn => ?_⟩
      have hunload := alike_unloadBitmap hunloaded
      have hnew := Inv.new_of_once (h.alike hunload) honce halike n (ho ▸ hn)
      rwa [hunload.returned] at hnew
    · exact ⟨fun hreload => absurd (.inl hreload) hloads, fun hload => absurd hload hloads⟩
  | unloadBitmap file isDecommit =>
    rintro rfl
    obtain ⟨-, hall, hreturned⟩ := unloadBitmap_frame (s := s) file
    refine h.unloaded_of_once (l := []) honce ?_ (fun n hn => ?_) (List.append_nil _).symm
    · exact hall.symm ▸ h.nodupAll
    · exact hreturned.symm ▸ hn
  | commit object => trivial
  | decommit object => trivial
  | release object => trivial
  | releaseCache isDecommit => trivial

/-- **Every handle is released once, exactly when the calls are orderly**: in every state of a run
no handle has been released twice, and `releaseCache(false)` leaves each released once. -/
theorem released_once_iff (calls : List (ResourceCall File)) :
    (∀ k, (run step init (calls.take k)).Once) ↔ Along step Orderly init calls :=
  forall_take_iff_along_of Inv (fun _ h => h.once) (fun _ _ h horderly => Inv.step h horderly)
    (fun _ _ h honce => Inv.orderly h honce) calls init inv_init

/-- A bitmap that is loaded, unloaded and then released again with the cache. -/
theorem released_twice : ∃ calls : List (ResourceCall String),
    ¬(run step init calls).released.Nodup := by
  refine ⟨[.getBitmap "a" false (.ok 0 8 8), .unloadBitmap "a" false, .releaseCache false], ?_⟩
  decide

/-- `get_bitmap` returns a resource with at most one call of itself. -/
theorem getBitmap_isSome (file : File) (reload : Bool) (loaded : Loaded) :
    (getBitmap file loaded 2 reload s).2.isSome := by
  by_cases hloads : s.Loads file reload
  · obtain ⟨o, -, -, hsome⟩ := getBitmap_loads loaded hloads
    exact hsome
  · exact (getBitmap_cached loaded hloads).2

end Resources

end DWindow.UI
