import DWindow.UI.Resources

/-!
# Looking up a bitmap

`get_bitmap` calls itself when the bitmap it has found has no handle.  A load leaves a handle or
the `false` of a failure, never `nil`, so the call of itself, which unloads first and then loads,
returns: there are at most two levels, whatever the loader returns at each of them.

* `getBitmapFrom_returns`: one call, from any state.
* `Cached.step`: what is cached for a file is a bitmap of this file.
* `getBitmap_ends`: both, for every state reached.
-/

namespace DWindow.UI.Resources

open Function Runs

variable {File : Type*} [DecidableEq File]

/-- `get_bitmap` where the loader returns `loader k` in the call of level `k`, with at most `depth`
levels of calls from `level` on. -/
def getBitmapFrom (file : File) (loader : Nat → Loaded) : Nat → Nat → Bool → Resources File →
    Resources File × Option Nat
  | 0, _, _, s => (s, none)
  | depth + 1, level, reload, s =>
    let s₁ := if reload then s.unloadBitmap file false else s
    let s₂ := if s₁.bitmapcache file = none then s₁.load file (loader level) else s₁
    match s₂.bitmapcache file with
    | none => (s₂, none)
    | some i =>
      let s₃ := s₂.resetRoi i
      if s₃.handle i = .nil then getBitmapFrom file loader depth (level + 1) true s₃
      else (s₃, some i)

theorem getBitmapFrom_const (file : File) (loaded : Loaded) :
    ∀ (depth level : Nat) (reload : Bool) (s : Resources File),
      getBitmapFrom file (fun _ => loaded) depth level reload s =
        getBitmap file loaded depth reload s
  | 0, _, _, _ => rfl
  | depth + 1, level, reload, s => by
    have ih : getBitmapFrom file (fun _ => loaded) depth (level + 1) true
        = getBitmap file loaded depth true :=
      funext fun s => getBitmapFrom_const file loaded depth (level + 1) true s
    rw [getBitmapFrom, ih]
    rfl

/-- A bitmap of the file with its region of interest reset, as the entry of the cache. -/
def IsEntry (s : Resources File) (file : File) (i : Nat) : Prop :=
  s.bitmapcache file = some i ∧
    ∃ o, s.objects[i]? = some o ∧ o.filename = some file ∧ o.roi = some (0, 0, 0, 0)

/-- What is cached for a file is a bitmap of this file. -/
def Cached (s : Resources File) : Prop :=
  ∀ file i, s.bitmapcache file = some i → ∃ o, s.objects[i]? = some o ∧ o.filename = some file

section

variable {s : Resources File} {file : File} {loader : Nat → Loaded}

omit [DecidableEq File] in
theorem isEntry_resetRoi {i : Nat} {o : Resource File} (h : s.bitmapcache file = some i)
    (ho : s.objects[i]? = some o) (hname : o.filename = some file) :
    (s.resetRoi i).IsEntry file i := by
  refine ⟨h, { o with roi := some (0, 0, 0, 0) }, ?_, hname, rfl⟩
  change (s.objects.modify i _)[i]? = _
  rw [List.getElem?_modify, ho]
  exact congrArg some (if_pos rfl)

/-- The resource that a load makes is a bitmap of the file. -/
theorem load_object (s : Resources File) (file : File) (loaded : Loaded) :
    ∃ o : Resource File, o.handle ≠ .nil ∧ o.filename = some file ∧
      (s.load file loaded).objects = s.objects ++ [o] ∧
      (s.load file loaded).bitmapcache = update s.bitmapcache file (some s.objects.length) := by
  cases loaded with
  | ok n width height =>
    refine ⟨_, ?_, rfl, rfl, rfl⟩
    nofun
  | failed message =>
    refine ⟨_, ?_, rfl, rfl, rfl⟩
    nofun

/-- **With nothing cached** the bitmap is loaded and returned, whether the load succeeds or not. -/
theorem getBitmapFrom_none (loader : Nat → Loaded) (level : Nat) (reload : Bool)
    (h : (if reload then s.unloadBitmap file false else s).bitmapcache file = none) :
    ∃ s' i, s'.IsEntry file i ∧
      ∀ depth, getBitmapFrom file loader (depth + 1) level reload s = (s', some i) := by
  generalize hs : (if reload then s.unloadBitmap file false else s) = s₁ at h
  obtain ⟨o, hne, hname, hobjects, hcache⟩ := load_object s₁ file (loader level)
  have hcached : (s₁.load file (loader level)).bitmapcache file = some s₁.objects.length := by
    rw [hcache, update_self]
  have ho : (s₁.load file (loader level)).objects[s₁.objects.length]? = some o := by
    rw [hobjects, List.getElem?_concat_length]
  have hhandle : ((s₁.load file (loader level)).resetRoi s₁.objects.length).handle
      s₁.objects.length ≠ .nil := by
    rw [handle_resetRoi, handle, ho]
    exact hne
  refine ⟨_, s₁.objects.length, isEntry_resetRoi hcached ho hname, fun depth => ?_⟩
  simp only [getBitmapFrom, hs, h, if_true, hcached, if_neg hhandle]

/-- **`get_bitmap` returns the entry of its file**, from any state in which the cache is right. -/
theorem getBitmapFrom_returns (h : s.Cached) (level : Nat) (reload : Bool) :
    ∃ s' i, s'.IsEntry file i ∧
      ∀ depth, getBitmapFrom file loader (depth + 2) level reload s = (s', some i) := by
  cases reload with
  | true =>
    obtain ⟨s', i, hentry, heq⟩ :=
      getBitmapFrom_none loader level true (unloadBitmap_cached file)
    exact ⟨s', i, hentry, fun depth => heq (depth + 1)⟩
  | false =>
    cases hcached : s.bitmapcache file with
    | none =>
      obtain ⟨s', i, hentry, heq⟩ :=
        getBitmapFrom_none loader level false hcached
      exact ⟨s', i, hentry, fun depth => heq (depth + 1)⟩
    | some i =>
      obtain ⟨o, ho, hname⟩ := h file i hcached
      by_cases hnil : (s.resetRoi i).handle i = .nil
      · -- no handle any more: the call of itself unloads the bitmap and loads it
        obtain ⟨s', j, hentry, heq⟩ := getBitmapFrom_none (s := s.resetRoi i) loader
          (level + 1) true (unloadBitmap_cached file)
        refine ⟨s', j, hentry, fun depth => ?_⟩
        rw [getBitmapFrom]
        simp only [Bool.false_eq_true, if_false, hcached, reduceCtorEq, if_pos hnil]
        exact heq depth
      · refine ⟨_, i, isEntry_resetRoi hcached ho hname, fun depth => ?_⟩
        rw [getBitmapFrom]
        simp only [Bool.false_eq_true, if_false, hcached, reduceCtorEq, if_neg hnil]

/-! ## The cache -/

omit [DecidableEq File] in
theorem Cached.of_objects {t : Resources File} (h : s.Cached)
    (hcache : ∀ file i, t.bitmapcache file = some i → s.bitmapcache file = some i)
    (hobjects : ∀ (i : Nat) (o : Resource File), s.objects[i]? = some o →
      ∃ o', t.objects[i]? = some o' ∧ o'.filename = o.filename) : t.Cached := by
  intro file i hi
  obtain ⟨o, ho, hname⟩ := h file i (hcache file i hi)
  obtain ⟨o', ho', hname'⟩ := hobjects i o ho
  exact ⟨o', ho', hname'.trans hname⟩

omit [DecidableEq File] in
theorem Cached.modify (h : s.Cached) (i : Nat) {f : Resource File → Resource File}
    (hf : ∀ o, (f o).filename = o.filename) : (s.modify i f).Cached := by
  refine h.of_objects (fun _ _ hj => hj) fun j o ho => ?_
  change ∃ o', (s.objects.modify i f)[j]? = some o' ∧ _
  rw [List.getElem?_modify, ho]
  refine ⟨if i = j then f o else o, rfl, ?_⟩
  split
  · exact hf o
  · rfl

omit [DecidableEq File] in
theorem Cached.createObject (h : s.Cached) (o : Resource File) : (s.createObject o).Cached := by
  refine h.of_objects (fun _ _ hj => hj) fun j o' ho => ⟨o', ?_, rfl⟩
  change (s.objects ++ [o])[j]? = some o'
  rw [List.getElem?_append_left (List.getElem?_eq_some_iff.mp ho).1, ho]

theorem Cached.unloadBitmap (h : s.Cached) (file : File) (isDecommit : Bool) :
    (s.unloadBitmap file isDecommit).Cached := by
  refine h.of_objects (fun file' i hi => ?_) fun j o ho => ⟨o, ?_, rfl⟩
  · rw [Resources.unloadBitmap] at hi
    split at hi
    · exact hi
    · split at hi
      · exact hi
      · change update s.bitmapcache file none file' = some i at hi
        by_cases heq : file' = file
        · rw [heq, update_self] at hi
          cases hi
        · rwa [update_of_ne heq] at hi
  · rw [Resources.unloadBitmap]
    split
    · exact ho
    · split
      · exact ho
      · exact ho

theorem Cached.load (h : s.Cached) (file : File) (loaded : Loaded) :
    (s.load file loaded).Cached := by
  obtain ⟨o, -, hname, hobjects, hcache⟩ := load_object s file loaded
  intro file' i hi
  rw [hcache] at hi
  rw [hobjects]
  by_cases heq : file' = file
  · rw [heq, update_self] at hi
    cases hi
    exact ⟨o, List.getElem?_concat_length .., heq ▸ hname⟩
  · rw [update_of_ne heq] at hi
    obtain ⟨o', ho', hname'⟩ := h file' i hi
    exact ⟨o', by rw [List.getElem?_append_left (List.getElem?_eq_some_iff.mp ho').1, ho'], hname'⟩

theorem Cached.getBitmap (file : File) (loaded : Loaded) : ∀ (depth : Nat) (reload : Bool)
    {s : Resources File}, s.Cached → (getBitmap file loaded depth reload s).1.Cached
  | 0, _, _, h => h
  | depth + 1, reload, s, h => by
    rw [Resources.getBitmap]
    have h₁ : (if reload then s.unloadBitmap file false else s).Cached := by
      split
      · exact h.unloadBitmap file false
      · exact h
    generalize (if reload then s.unloadBitmap file false else s) = s₁ at h₁
    have h₂ : (if s₁.bitmapcache file = none then s₁.load file loaded else s₁).Cached := by
      split
      · exact h₁.load file loaded
      · exact h₁
    dsimp only
    generalize (if s₁.bitmapcache file = none then s₁.load file loaded else s₁) = s₂ at h₂
    split
    · exact h₂
    · next i _ =>
      have h₃ : (s₂.resetRoi i).Cached := h₂.modify i fun _ => rfl
      split
      · exact Cached.getBitmap file loaded depth true h₃
      · exact h₃

/-- **Each call keeps the cache right.** -/
theorem Cached.step (h : s.Cached) (call : ResourceCall File) : (s.step call).Cached := by
  cases call with
  | create handle width height => exact h.createObject _
  | commit object => exact h
  | decommit object => exact h
  | release object => exact Cached.modify h object fun _ => rfl
  | drawText loaded =>
    cases loaded with
    | ok n width height => exact h.createObject _
    | failed message => exact h
  | getBitmap file reload loaded => exact Cached.getBitmap file loaded 2 reload h
  | unloadBitmap file isDecommit => exact h.unloadBitmap file isDecommit
  | releaseCache isDecommit =>
    cases isDecommit with
    | true => exact h
    | false => exact fun _ _ hi => nomatch hi

end

/-- **Looking up a bitmap ends**: after any calls, for every file and whatever the loader returns
at each level, `get_bitmap` returns the entry of the file, with its region of interest reset,
after at most one call of itself. -/
theorem getBitmap_ends (calls : List (ResourceCall File)) (file : File) (reload : Bool)
    (loader : Nat → Loaded) : ∃ s' i, IsEntry s' file i ∧
      ∀ depth, getBitmapFrom file loader (depth + 2) 0 reload (run step init calls) =
        (s', some i) :=
  getBitmapFrom_returns
    (run_invariant Cached (fun _ call h => h.step call) calls init fun _ _ hi => nomatch hi)
    0 reload

end DWindow.UI.Resources
