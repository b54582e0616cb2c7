import DWindow.Renderer.TextureAllocator

/-!
# Textures from the pool

`CreateTexture` hands out the first pooled texture that `serves` the request: width, height,
pool and format are compared, usage is not, and the entry is copied as it is, with the `hr` of
its last `LockRect` and its own `m_dont_pool`.  A new texture is always as requested, so the
call is right if and only if the entry it takes, if any, agrees in these three:
`createTexture_fits_iff`.  Entries of a pool never have `m_dont_pool` set, so none serves a
request with `dont_pool` right (`not_createsFitting_of_dontPool`).
-/

namespace DWindow.Renderer

structure TextureRequest.Fits (r : TextureRequest) (t : PooledTexture) : Prop where
  width : t.width = r.width
  height : t.height = r.height
  format : t.format = r.format
  pool : t.pool = r.pool
  usage : t.usage = r.usage
  hr : 0 ≤ t.hr
  dontPool : t.mDontPool = r.dontPool

theorem takePooled_eq_none {r : TextureRequest} : ∀ {pool : List PooledTexture},
    takePooled r pool = none ↔ pool.find? (fun t => t.serves r) = none := by
  intro pool
  induction pool with
  | nil => simp [takePooled]
  | cons t pool ih =>
    by_cases ht : t.serves r
    · simp [takePooled, ht]
    · simp [takePooled, ht, ih]

/-- What is taken from the pool is the first entry that serves. -/
theorem find?_of_takePooled {r : TextureRequest} : ∀ {pool rest : List PooledTexture}
    {t : PooledTexture}, takePooled r pool = some (t, rest) →
      pool.find? (fun t => t.serves r) = some t ∧ t.serves r := by
  intro pool
  induction pool with
  | nil => intro rest t h; cases h
  | cons u pool ih =>
    intro rest t h
    rw [takePooled] at h
    split at h
    · next hu =>
      cases h
      simp [hu]
    · next hu =>
      obtain ⟨⟨v, q⟩, hq, he⟩ := Option.map_eq_some_iff.mp h
      cases he
      simpa [hu] using ih hq

theorem PooledTexture.serves_fits {t : PooledTexture} {r : TextureRequest} (h : t.serves r) :
    r.Fits t ↔ t.usage = r.usage ∧ 0 ≤ t.hr ∧ t.mDontPool = r.dontPool := by
  simp only [PooledTexture.serves, Bool.and_eq_true, beq_iff_eq] at h
  obtain ⟨⟨⟨⟨hwidth, hheight⟩, hpool⟩, hformat⟩, -⟩ := h
  constructor
  · intro hfits
    exact ⟨hfits.usage, hfits.hr, hfits.dontPool⟩
  · rintro ⟨husage, hhr, hdont⟩
    exact ⟨hwidth, hheight, hformat, hpool, husage, hhr, hdont⟩

namespace TextureAllocator

/-- The `HRESULT` of `CreateTexture`. -/
def createTextureHr (s : TextureAllocator) (r : TextureRequest) (createHr : Int)
    (lock : LockResult) : Int :=
  match takePooled r s.mTexturePool with
  | some _ => 0
  | none =>
    if createHr < 0 then createHr
    else if PooledTexture.keptLocked r.pool r.usage then lock.hr else createHr

/-- A call that succeeds gives its caller a texture as requested. -/
def CreatesFitting (s : TextureAllocator) (r : TextureRequest) (createHr : Int)
    (lock : LockResult) : Prop :=
  0 ≤ s.createTextureHr r createHr lock →
    ∃ t, (s.createTexture r createHr lock).callers = s.callers ++ [t] ∧ r.Fits t

theorem createTexture_fits_of_none {s : TextureAllocator} {r : TextureRequest} {createHr : Int}
    {lock : LockResult} (hnone : takePooled r s.mTexturePool = none) :
    s.CreatesFitting r createHr lock := by
  intro hhr
  rw [createTextureHr, hnone] at hhr
  rw [createTexture, hnone]
  dsimp only at hhr ⊢
  split at hhr
  · omega
  · next hcreate =>
    rw [if_neg hcreate]
    split at hhr
    · next hlocked =>
      rw [if_pos hlocked, if_neg (by omega)]
      exact ⟨_, rfl, rfl, rfl, rfl, rfl, rfl, hhr, rfl⟩
    · next hlocked =>
      rw [if_neg hlocked]
      exact ⟨_, rfl, rfl, rfl, rfl, rfl, rfl, hhr, rfl⟩

/-- A pooled texture that fits agrees in what the search does not compare. -/
theorem CreatesFitting.agrees {s : TextureAllocator} {r : TextureRequest} {createHr : Int}
    {lock : LockResult} (h : s.CreatesFitting r createHr lock) {t : PooledTexture}
    (hfind : s.mTexturePool.find? (fun t => t.serves r) = some t) :
    t.usage = r.usage ∧ 0 ≤ t.hr ∧ t.mDontPool = r.dontPool := by
  cases htake : takePooled r s.mTexturePool with
  | none =>
    rw [takePooled_eq_none.mp htake] at hfind
    cases hfind
  | some taken =>
    obtain ⟨u, rest⟩ := taken
    obtain ⟨hfind', hserves⟩ := find?_of_takePooled htake
    obtain rfl := Option.some.inj (hfind.symm.trans hfind')
    have hcallers : (s.createTexture r createHr lock).callers = s.callers ++ [t] := by
      rw [createTexture, htake]
    have hhr : s.createTextureHr r createHr lock = 0 := by
      rw [createTextureHr, htake]
    obtain ⟨v, hv, hfits⟩ := h (Int.le_of_eq hhr.symm)
    rw [hcallers] at hv
    obtain rfl := List.singleton_inj.mp (List.append_cancel_left hv)
    exact (PooledTexture.serves_fits hserves).mp hfits

/-- **A texture fits its request** if and only if it is new, or the pooled one agrees in what
the search does not compare. -/
theorem createTexture_fits_iff (s : TextureAllocator) (r : TextureRequest) (createHr : Int)
    (lock : LockResult) :
    s.CreatesFitting r createHr lock ↔
      ∀ t, s.mTexturePool.find? (fun t => t.serves r) = some t →
        t.usage = r.usage ∧ 0 ≤ t.hr ∧ t.mDontPool = r.dontPool := by
  refine ⟨fun h _ hfind => h.agrees hfind, fun h => ?_⟩
  cases htake : takePooled r s.mTexturePool with
  | none => exact createTexture_fits_of_none htake
  | some taken =>
    obtain ⟨t, rest⟩ := taken
    obtain ⟨hfind, hserves⟩ := find?_of_takePooled htake
    intro _
    refine ⟨t, ?_, (PooledTexture.serves_fits hserves).mpr (h t hfind)⟩
    rw [createTexture, htake]

/-- A pool with one texture, which a caller gave back. -/
def givenBack : TextureAllocator := (init 1).run [.create smallTexture 0 ⟨0, true⟩, .delete 0]

def dynamicTexture : TextureRequest := { smallTexture with usage := d3dusageDynamic }

/-- A caller that asks for a dynamic texture gets the one that was given back. -/
theorem usage_not_compared : givenBack.createTextureHr dynamicTexture 0 ⟨0, true⟩ = 0 ∧
    (∃ t, (givenBack.createTexture dynamicTexture 0 ⟨0, true⟩).callers = [t] ∧ t.usage = 0) ∧
    ¬givenBack.CreatesFitting dynamicTexture 0 ⟨0, true⟩ := by
  refine ⟨rfl, ⟨_, rfl, rfl⟩, fun h => ?_⟩
  obtain ⟨t, ht, hfits⟩ := h (by decide)
  cases ht
  exact absurd hfits.usage (by decide)

/-! ## The pool along a run -/

/-- No entry of the pool is one that is not to be pooled. -/
def Pooled (s : TextureAllocator) : Prop := ∀ t ∈ s.mTexturePool, t.mDontPool = false

theorem passFrames_dontPool {lock : Nat → LockResult} : ∀ {pool : List PooledTexture} {i : Nat},
    (∀ t ∈ pool, t.mDontPool = false) → ∀ t ∈ passFrames lock i pool, t.mDontPool = false := by
  intro pool
  induction pool with
  | nil => intro i _ t ht; exact absurd ht List.not_mem_nil
  | cons u pool ih =>
    intro i h t ht
    rw [passFrames, List.mem_cons] at ht
    rcases ht with rfl | ht
    · have hu := h u List.mem_cons_self
      rw [PooledTexture.passFrame]
      split
      · exact hu
      · exact hu
    · exact ih (fun v hv => h v (List.mem_cons_of_mem _ hv)) t ht

theorem Pooled.step {s : TextureAllocator} (hs : s.Pooled) (c : TextureCall) :
    (s.step c).Pooled := by
  cases c with
  | create r createHr lock =>
    intro t ht
    refine hs t ?_
    rw [TextureAllocator.step, createTexture] at ht
    cases htake : takePooled r s.mTexturePool with
    | some taken =>
      obtain ⟨u, rest⟩ := taken
      obtain ⟨a, b, hpool, rfl⟩ := of_takePooled htake
      rw [htake] at ht
      rw [hpool]
      rcases List.mem_append.mp ht with ht | ht
      · exact List.mem_append_left _ ht
      · exact List.mem_append_right _ (List.mem_cons_of_mem _ ht)
    | none =>
      rw [htake] at ht
      dsimp only at ht
      split at ht
      · exact ht
      · split at ht
        · split at ht
          · exact ht
          · exact ht
        · exact ht
  | delete i =>
    rw [TextureAllocator.step]
    split
    · exact hs
    · next t _ =>
      intro u hu
      rw [deleteTexture] at hu
      split at hu
      · exact hs u hu
      · split at hu
        · exact hs u hu
        · next hpool =>
          push Not at hpool
          rcases List.mem_append.mp hu with hu | hu
          · exact hs u hu
          · rw [List.mem_singleton.mp hu]
            exact Bool.not_eq_true _ ▸ hpool.1
  | afterFrameRender lock => exact passFrames_dontPool hs
  | destroyPool pool => exact fun t ht => hs t (mem_of_mem_destroyEntries ht)

/-- No run pools a texture that is not to be pooled. -/
theorem run_pooled (device : Nat) (calls : List TextureCall) :
    ((init device).run calls).Pooled :=
  Runs.run_invariant Pooled (fun _ c hs => hs.step c) calls _ (fun _ h => absurd h List.not_mem_nil)

/-- **A request for a texture that is not to be pooled** is never served right from the pool. -/
theorem not_createsFitting_of_dontPool (device : Nat) (calls : List TextureCall)
    {r : TextureRequest} (hdont : r.dontPool = true) {t : PooledTexture}
    (hfind : ((init device).run calls).mTexturePool.find? (fun t => t.serves r) = some t)
    (createHr : Int) (lock : LockResult) :
    ¬((init device).run calls).CreatesFitting r createHr lock := by
  intro h
  have hpooled := run_pooled device calls t (List.mem_of_find?_eq_some hfind)
  rw [(h.agrees hfind).2.2, hdont] at hpooled
  cases hpooled

end TextureAllocator

end DWindow.Renderer
