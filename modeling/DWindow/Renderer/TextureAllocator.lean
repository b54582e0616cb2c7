import DWindow.Lib.Runs
import Mathlib.Data.List.Perm.Basic

/-!
# The texture pool

`CTextureAllocator` of `TextureAllocator.cpp`, its textures: callers hold `CPooledTexture`
objects, whose destructor gives the texture back to the pool or releases it.  Every
operation holds the lock of the pool.  A texture is named by the number of textures that
the device created before it; what the device answers is given with the call.

`m_texture_pool` is an array of 1024 entries, `DeleteTexture` does not look at that.  The
model takes memory to go on behind the array (the surface pool stands there, which nothing
fills), so a pool of more entries is one that has left its array.  `ownedAlong_iff` says when
no run does that and no texture is lost.
-/

namespace DWindow.Renderer

inductive D3DPool
  | default
  | managed
  | systemmem
  | scratch
deriving DecidableEq, Repr

def d3dusageDynamic : UInt32 := 0x200

/-- `PooledTexture`; of `locked_rect` whether its `pBits` is set. -/
structure PooledTexture where
  texture : Option Nat
  pBits : Bool
  width : Int
  height : Int
  format : UInt32
  pool : D3DPool
  usage : UInt32
  mDontPool : Bool
  hr : Int
  creator : Nat
  framePassed : Int
deriving DecidableEq, Repr

/-- What `LockRect` answers, and whether it leaves `pBits` set. -/
structure LockResult where
  hr : Int
  pBits : Bool
deriving DecidableEq, Repr

/-- The arguments of `CreateTexture`. -/
structure TextureRequest where
  width : Int
  height : Int
  usage : UInt32
  format : UInt32
  pool : D3DPool
  dontPool : Bool
deriving DecidableEq, Repr

/-- `CTextureAllocator` with the objects its callers hold, the number of textures the device
has created, and those released, in order. -/
structure TextureAllocator where
  mDevice : Nat
  mTexturePool : List PooledTexture
  callers : List PooledTexture
  created : Nat
  released : List Nat
deriving DecidableEq, Repr

/-- A call; `delete i` destroys the object number `i` of the callers. -/
inductive TextureCall
  | create (request : TextureRequest) (createHr : Int) (lock : LockResult)
  | delete (i : Nat)
  | afterFrameRender (lock : Nat → LockResult)
  | destroyPool (pool : D3DPool)

/-- `m_texture_pool[1024]`. -/
def poolSize : Nat := 1024

def lockDelay : Int := 3

namespace PooledTexture

/-- `SYSTEMMEM` and dynamic textures are kept locked. -/
def keptLocked (pool : D3DPool) (usage : UInt32) : Bool :=
  pool == .systemmem || usage &&& d3dusageDynamic != 0

def serves (t : PooledTexture) (r : TextureRequest) : Bool :=
  t.width == r.width && t.height == r.height && t.pool == r.pool && t.format == r.format &&
    (t.framePassed ≥ lockDelay || r.pool != .systemmem || r.usage &&& d3dusageDynamic == 0)

/-- One entry in `AfterFrameRender`. -/
def passFrame (t : PooledTexture) (lock : LockResult) : PooledTexture :=
  if t.pBits = false ∧ keptLocked t.pool t.usage then
    { t with framePassed := t.framePassed + 1, hr := lock.hr, pBits := lock.pBits }
  else { t with framePassed := t.framePassed + 1 }

end PooledTexture

/-- The search of `CreateTexture`: the first entry that serves, and the pool without it. -/
def takePooled (r : TextureRequest) :
    List PooledTexture → Option (PooledTexture × List PooledTexture)
  | [] => none
  | t :: pool =>
    if t.serves r then some (t, pool) else (takePooled r pool).map fun u => (u.1, t :: u.2)

/-- The loop of `AfterFrameRender`, from entry `i`. -/
def passFrames (lock : Nat → LockResult) : Nat → List PooledTexture → List PooledTexture
  | _, [] => []
  | i, t :: pool => t.passFrame (lock i) :: passFrames lock (i + 1) pool

/-- The loop of `DestroyPool`: the entries that stay, and the textures released. -/
def destroyEntries (pool : D3DPool) : List PooledTexture → List PooledTexture × List Nat
  | [] => ([], [])
  | t :: entries =>
    let r := destroyEntries pool entries
    if t.pool = pool then (r.1, t.texture.toList ++ r.2) else (t :: r.1, r.2)

namespace TextureAllocator

def init (device : Nat) : TextureAllocator := ⟨device, [], [], 0, []⟩

def createTexture (s : TextureAllocator) (r : TextureRequest) (createHr : Int) (lock : LockResult) :
    TextureAllocator :=
  match takePooled r s.mTexturePool with
  | some (t, pool) => { s with mTexturePool := pool, callers := s.callers ++ [t] }
  | none =>
    let o : PooledTexture :=
      { texture := none, pBits := false, width := r.width, height := r.height, format := r.format
        pool := r.pool, usage := r.usage, mDontPool := r.dontPool, hr := createHr
        creator := s.mDevice, framePassed := 0 }
    if createHr < 0 then { s with callers := s.callers ++ [o] }
    else if PooledTexture.keptLocked r.pool r.usage then
      if lock.hr < 0 then
        { s with callers := s.callers ++ [{ o with hr := lock.hr, pBits := lock.pBits }]
                 created := s.created + 1, released := s.released ++ [s.created] }
      else
        { s with callers := s.callers ++
                   [{ o with texture := some s.created, hr := lock.hr, pBits := lock.pBits }]
                 created := s.created + 1 }
    else { s with callers := s.callers ++ [{ o with texture := some s.created }]
                  created := s.created + 1 }

/-- `DeleteTexture`, of an object that is no caller's any more. -/
def deleteTexture (s : TextureAllocator) (t : PooledTexture) : TextureAllocator :=
  if t.hr < 0 then s
  else if t.mDontPool = true ∨ t.creator ≠ s.mDevice then
    { s with released := s.released ++ t.texture.toList }
  else { s with mTexturePool := s.mTexturePool ++ [{ t with framePassed := 5 }] }

def step (s : TextureAllocator) : TextureCall → TextureAllocator
  | .create r createHr lock => s.createTexture r createHr lock
  | .delete i =>
    match s.callers[i]? with
    | none => s
    | some t => { s with callers := s.callers.eraseIdx i }.deleteTexture t
  | .afterFrameRender lock => { s with mTexturePool := passFrames lock 0 s.mTexturePool }
  | .destroyPool pool =>
    let r := destroyEntries pool s.mTexturePool
    { s with mTexturePool := r.1, released := s.released ++ r.2 }

def run (s : TextureAllocator) (calls : List TextureCall) : TextureAllocator :=
  Runs.run step s calls

def textures (entries : List PooledTexture) : List Nat := entries.filterMap PooledTexture.texture

/-- In how many places the texture is: with a caller, in the pool, released. -/
def places (s : TextureAllocator) (id : Nat) : Nat :=
  (textures s.callers).count id + (textures s.mTexturePool).count id + s.released.count id

/-- **Textures are owned.**  A texture the device created is held by one caller, or is once in
the pool, or was released once, and the pool is inside its array. -/
structure Owned (s : TextureAllocator) : Prop where
  once : ∀ id < s.created, s.places id = 1
  room : s.mTexturePool.length ≤ poolSize

/-- A deleted object whose last call failed has no texture, and one that goes into the pool
finds room. -/
def Fits (s : TextureAllocator) : TextureCall → Prop
  | .delete i => ∀ t, s.callers[i]? = some t → (t.hr < 0 → t.texture = none) ∧
      (0 ≤ t.hr → t.mDontPool = false → t.creator = s.mDevice → s.mTexturePool.length < poolSize)
  | _ => True

/-! ## Where a call leaves a texture -/

@[simp] theorem textures_append (a b : List PooledTexture) :
    textures (a ++ b) = textures a ++ textures b := List.filterMap_append

theorem textures_cons (t : PooledTexture) (b : List PooledTexture) :
    textures (t :: b) = t.texture.toList ++ textures b := by
  rw [textures, List.filterMap_cons]
  cases t.texture with
  | none => rfl
  | some id => rfl

@[simp] theorem textures_singleton (t : PooledTexture) : textures [t] = t.texture.toList := by
  rw [textures_cons]
  exact List.append_nil _

theorem of_takePooled {r : TextureRequest} :
    ∀ {pool pool' : List PooledTexture} {t : PooledTexture},
    takePooled r pool = some (t, pool') → ∃ a b, pool = a ++ t :: b ∧ pool' = a ++ b := by
  intro pool
  induction pool with
  | nil => intro pool' t h; cases h
  | cons u pool ih =>
    intro pool' t h
    rw [takePooled] at h
    split at h
    · cases h
      exact ⟨[], pool, rfl, rfl⟩
    · obtain ⟨⟨v, q⟩, hq, he⟩ := Option.map_eq_some_iff.mp h
      cases he
      obtain ⟨a, b, rfl, rfl⟩ := ih hq
      exact ⟨u :: a, b, rfl, rfl⟩

theorem textures_passFrames (lock : Nat → LockResult) : ∀ (pool : List PooledTexture) (i : Nat),
    textures (passFrames lock i pool) = textures pool ∧
      (passFrames lock i pool).length = pool.length := by
  intro pool
  induction pool with
  | nil =>
    intro i
    exact ⟨rfl, rfl⟩
  | cons t pool ih =>
    intro i
    obtain ⟨htextures, hlength⟩ := ih (i + 1)
    have ht : (t.passFrame (lock i)).texture = t.texture := by
      rw [PooledTexture.passFrame]
      split
      · rfl
      · rfl
    rw [passFrames, textures_cons, textures_cons, ht, htextures, List.length_cons, hlength]
    exact ⟨rfl, rfl⟩

theorem count_destroyEntries (pool : D3DPool) (id : Nat) : ∀ (entries : List PooledTexture),
    (textures (destroyEntries pool entries).1).count id + (destroyEntries pool entries).2.count id =
      (textures entries).count id ∧ (destroyEntries pool entries).1.length ≤ entries.length := by
  intro entries
  induction entries with
  | nil => exact ⟨rfl, Nat.le_refl _⟩
  | cons t entries ih =>
    obtain ⟨hcount, hlength⟩ := ih
    rw [destroyEntries]
    split
    · simp only [textures_cons, List.count_append, List.length_cons]
      omega
    · simp only [textures_cons, List.count_append, List.length_cons]
      omega

theorem exists_of_mem_passFrames {lock : Nat → LockResult} : ∀ {pool : List PooledTexture}
    {i : Nat} {t : PooledTexture}, t ∈ passFrames lock i pool →
      ∃ u ∈ pool, t.texture = u.texture := by
  intro pool
  induction pool with
  | nil => intro i t ht; exact absurd ht List.not_mem_nil
  | cons u pool ih =>
    intro i t ht
    rw [passFrames, List.mem_cons] at ht
    rcases ht with rfl | ht
    · refine ⟨u, List.mem_cons_self .., ?_⟩
      rw [PooledTexture.passFrame]
      split
      · rfl
      · rfl
    · obtain ⟨v, hv, htv⟩ := ih ht
      exact ⟨v, List.mem_cons_of_mem _ hv, htv⟩

theorem mem_of_mem_destroyEntries {pool : D3DPool} : ∀ {entries : List PooledTexture}
    {t : PooledTexture}, t ∈ (destroyEntries pool entries).1 → t ∈ entries := by
  intro entries
  induction entries with
  | nil => intro t ht; exact absurd ht List.not_mem_nil
  | cons u entries ih =>
    intro t ht
    rw [destroyEntries] at ht
    split at ht
    · exact List.mem_cons_of_mem _ (ih ht)
    · rcases List.mem_cons.mp ht with rfl | ht
      · exact List.mem_cons_self ..
      · exact List.mem_cons_of_mem _ (ih ht)

/-- What calls keep while every object deleted fits. -/
structure Kept (s : TextureAllocator) : Prop where
  once : ∀ id, s.places id = if id < s.created then 1 else 0
  room : s.mTexturePool.length ≤ poolSize
  pooled : ∀ t ∈ s.mTexturePool, t.texture ≠ none
  valid : ∀ t ∈ s.callers, 0 ≤ t.hr → t.texture ≠ none

theorem init_kept (device : Nat) : (init device).Kept :=
  ⟨fun _ => rfl, Nat.zero_le _, fun _ h => absurd h List.not_mem_nil,
    fun _ h => absurd h List.not_mem_nil⟩

namespace Kept

variable {s : TextureAllocator}

theorem owned (hs : s.Kept) : s.Owned :=
  ⟨fun id hid => (hs.once id).trans (if_pos hid), hs.room⟩

theorem reuse (hs : s.Kept) {a b : List PooledTexture} {t : PooledTexture}
    (hpool : s.mTexturePool = a ++ t :: b) :
    { s with mTexturePool := a ++ b, callers := s.callers ++ [t] }.Kept := by
  have hroom := hs.room
  rw [hpool, List.length_append, List.length_cons] at hroom
  have hmem : ∀ u ∈ a ++ b, u ∈ s.mTexturePool := by
    intro u hu
    rw [hpool]
    rcases List.mem_append.mp hu with hu | hu
    · exact List.mem_append_left _ hu
    · exact List.mem_append_right _ (List.mem_cons_of_mem _ hu)
  refine ⟨fun id => ?_, ?_, fun u hu => hs.pooled u (hmem u hu), fun u hu => ?_⟩
  · have honce := hs.once id
    rw [places, hpool] at honce
    simp only [textures_append, textures_cons, List.count_append] at honce
    show (textures (s.callers ++ [t])).count id + (textures (a ++ b)).count id +
      s.released.count id = if id < s.created then 1 else 0
    simp only [textures_append, textures_singleton, List.count_append]
    omega
  · show (a ++ b).length ≤ poolSize
    rw [List.length_append]
    omega
  · rcases List.mem_append.mp hu with hu | hu
    · exact hs.valid u hu
    · rw [List.mem_singleton.mp hu]
      refine fun _ => hs.pooled t ?_
      rw [hpool]
      exact List.mem_append_right _ (List.mem_cons_self ..)

theorem addEmpty (hs : s.Kept) {t : PooledTexture} (ht : t.texture = none) (hhr : t.hr < 0) :
    { s with callers := s.callers ++ [t] }.Kept := by
  refine ⟨fun id => ?_, hs.room, hs.pooled, fun u hu => ?_⟩
  · have honce := hs.once id
    rw [places] at honce
    show (textures (s.callers ++ [t])).count id + _ + _ = if id < s.created then 1 else 0
    rw [textures_append, textures_singleton, ht, Option.toList_none, List.append_nil]
    exact honce
  · rcases List.mem_append.mp hu with hu | hu
    · exact hs.valid u hu
    · rw [List.mem_singleton.mp hu]
      exact fun h => absurd hhr (Int.not_lt.mpr h)

theorem ite_succ {m n : Nat} : (if m < n then 1 else 0) + (if n = m then 1 else 0) =
    if m < n + 1 then 1 else 0 := by
  split
  · split
    · omega
    · rw [if_pos (by omega)]
  · split
    · rw [if_pos (by omega)]
    · rw [if_neg (by omega)]

theorem addNew (hs : s.Kept) {t : PooledTexture} (ht : t.texture = some s.created) :
    { s with callers := s.callers ++ [t], created := s.created + 1 }.Kept := by
  refine ⟨fun id => ?_, hs.room, hs.pooled, fun u hu => ?_⟩
  · have honce := hs.once id
    rw [places] at honce
    show (textures (s.callers ++ [t])).count id + (textures s.mTexturePool).count id +
      s.released.count id = if id < s.created + 1 then 1 else 0
    rw [textures_append, textures_singleton, ht, Option.toList_some, List.count_append,
      List.count_singleton, ← ite_succ, ← honce]
    simp only [beq_iff_eq]
    omega
  · rcases List.mem_append.mp hu with hu | hu
    · exact hs.valid u hu
    · rw [List.mem_singleton.mp hu, ht]
      exact fun _ h => nomatch h

/-- A new texture that cannot be locked is released at once. -/
theorem addReleased (hs : s.Kept) :
    { s with created := s.created + 1, released := s.released ++ [s.created] }.Kept := by
  refine ⟨fun id => ?_, hs.room, hs.pooled, hs.valid⟩
  have honce := hs.once id
  rw [places] at honce
  show (textures s.callers).count id + (textures s.mTexturePool).count id +
    (s.released ++ [s.created]).count id = if id < s.created + 1 then 1 else 0
  rw [List.count_append, List.count_singleton, ← ite_succ, ← honce]
  simp only [beq_iff_eq]
  omega

theorem createTexture (hs : s.Kept) (r : TextureRequest) (createHr : Int) (lock : LockResult) :
    (s.createTexture r createHr lock).Kept := by
  rw [TextureAllocator.createTexture]
  cases htake : takePooled r s.mTexturePool with
  | some u =>
    obtain ⟨t, pool⟩ := u
    obtain ⟨a, b, hpool, rfl⟩ := of_takePooled htake
    exact hs.reuse hpool
  | none =>
    dsimp only
    split
    · next hcreate => exact hs.addEmpty rfl hcreate
    · split
      · split
        · next hlock => exact hs.addReleased.addEmpty rfl hlock
        · exact hs.addNew rfl
      · exact hs.addNew rfl

theorem afterFrameRender (hs : s.Kept) (lock : Nat → LockResult) :
    (s.step (.afterFrameRender lock)).Kept := by
  obtain ⟨htextures, hlength⟩ := textures_passFrames lock s.mTexturePool 0
  refine ⟨fun id => ?_, ?_, fun t ht => ?_, hs.valid⟩
  · show (textures s.callers).count id + (textures (passFrames lock 0 s.mTexturePool)).count id +
      s.released.count id = _
    rw [htextures]
    exact hs.once id
  · exact Nat.le_trans (Nat.le_of_eq hlength) hs.room
  · obtain ⟨u, hu, htu⟩ := exists_of_mem_passFrames ht
    rw [htu]
    exact hs.pooled u hu

theorem destroyPool (hs : s.Kept) (pool : D3DPool) : (s.step (.destroyPool pool)).Kept := by
  have hlength := fun id => (count_destroyEntries pool id s.mTexturePool).2
  refine ⟨fun id => ?_, Nat.le_trans (hlength 0) hs.room, fun t ht => ?_, hs.valid⟩
  · have hcount := (count_destroyEntries pool id s.mTexturePool).1
    have honce := hs.once id
    rw [places] at honce
    show (textures s.callers).count id +
      (textures (destroyEntries pool s.mTexturePool).1).count id +
      (s.released ++ (destroyEntries pool s.mTexturePool).2).count id =
        if id < s.created then 1 else 0
    rw [List.count_append]
    omega
  · exact hs.pooled t (mem_of_mem_destroyEntries ht)

/-- The places of a texture when its object is out of the callers' hands. -/
theorem places_eraseIdx {i : Nat} {t : PooledTexture} (h : s.callers[i]? = some t) (id : Nat) :
    (textures (s.callers.eraseIdx i)).count id + t.texture.toList.count id =
      (textures s.callers).count id := by
  obtain ⟨hi, rfl⟩ := List.getElem?_eq_some_iff.mp h
  have hperm := (List.getElem_cons_eraseIdx_perm hi).filterMap PooledTexture.texture
  have hcount := hperm.count_eq id
  change (textures (s.callers[i] :: s.callers.eraseIdx i)).count id = _ at hcount
  rw [textures_cons, List.count_append, Nat.add_comm] at hcount
  exact hcount

/-- **A deleted object** leaves its texture owned if and only if it fits. -/
theorem delete (hs : s.Kept) (i : Nat) :
    ((s.step (.delete i)).Owned → s.Fits (.delete i)) ∧
    (s.Fits (.delete i) → (s.step (.delete i)).Kept) := by
  rw [step]
  cases hget : s.callers[i]? with
  | none =>
    refine ⟨fun _ t ht => ?_, fun _ => hs⟩
    rw [hget] at ht
    cases ht
  | some t =>
    have hone : s.Fits (.delete i) ↔ (t.hr < 0 → t.texture = none) ∧
        (0 ≤ t.hr → t.mDontPool = false → t.creator = s.mDevice →
          s.mTexturePool.length < poolSize) := by
      constructor
      · exact fun h => h t hget
      · rintro h u hu
        rw [hget] at hu
        cases hu
        exact h
    have hplaces := places_eraseIdx hget
    have hvalid : ∀ u ∈ s.callers.eraseIdx i, 0 ≤ u.hr → u.texture ≠ none :=
      fun u hu => hs.valid u (List.mem_of_mem_eraseIdx hu)
    have ht : t ∈ s.callers := List.mem_of_getElem? hget
    rw [hone]
    dsimp only
    rw [deleteTexture]
    split
    · next hhr =>
      -- the failed object goes away, and what it held with it
      constructor
      · intro howned
        refine ⟨fun _ => ?_, fun h => absurd hhr (Int.not_lt.mpr h)⟩
        by_contra hsome
        obtain ⟨id, hid⟩ := Option.ne_none_iff_exists'.mp hsome
        have honce := hs.once id
        have hafter := howned.once id
        have hcount := hplaces id
        rw [hid, Option.toList_some, List.count_singleton_self] at hcount
        rw [places] at honce hafter
        dsimp only at hafter
        split at honce
        · next hlt =>
          have := hafter hlt
          omega
        · omega
      · rintro ⟨hnone, -⟩
        refine ⟨fun id => ?_, hs.room, hs.pooled, hvalid⟩
        have hcount := hplaces id
        rw [hnone hhr, Option.toList_none, List.count_nil, Nat.add_zero] at hcount
        rw [places]
        dsimp only
        rw [hcount]
        exact hs.once id
    · next hhr =>
      split
      · next hrelease =>
        refine ⟨fun _ => ⟨fun h => absurd h hhr, fun _ hdont hcreator => ?_⟩, fun _ => ?_⟩
        · rcases hrelease with h | h
          · exact absurd (hdont.symm.trans h) Bool.false_ne_true
          · exact absurd hcreator h
        · refine ⟨fun id => ?_, hs.room, hs.pooled, hvalid⟩
          have hcount := hplaces id
          have honce := hs.once id
          rw [places] at honce ⊢
          dsimp only
          rw [List.count_append]
          omega
      · next hpool =>
        have hgoes : t.mDontPool = false ∧ t.creator = s.mDevice := by
          push Not at hpool
          exact ⟨by simpa using hpool.1, hpool.2⟩
        constructor
        · intro howned
          refine ⟨fun h => absurd h hhr, fun _ _ _ => ?_⟩
          have hroom := howned.room
          simp only [List.length_append, List.length_singleton] at hroom
          exact hroom
        · rintro ⟨-, hroom⟩
          refine ⟨fun id => ?_, ?_, fun u hu => ?_, hvalid⟩
          · have hcount := hplaces id
            have honce := hs.once id
            rw [places] at honce ⊢
            dsimp only
            rw [textures_append, textures_singleton, List.count_append]
            dsimp only
            omega
          · simp only [List.length_append, List.length_singleton]
            exact hroom (Int.not_lt.mp hhr) hgoes.1 hgoes.2
          · rcases List.mem_append.mp hu with hu | hu
            · exact hs.pooled u hu
            · rw [List.mem_singleton.mp hu]
              exact hs.valid t ht (Int.not_lt.mp hhr)

/-- **A call** leaves all textures owned if and only if it fits. -/
theorem step (hs : s.Kept) (c : TextureCall) :
    ((s.step c).Owned → s.Fits c) ∧ (s.Fits c → (s.step c).Kept) := by
  cases c with
  | create r createHr lock => exact ⟨fun _ => trivial, fun _ => hs.createTexture r createHr lock⟩
  | delete i => exact hs.delete i
  | afterFrameRender lock => exact ⟨fun _ => trivial, fun _ => hs.afterFrameRender lock⟩
  | destroyPool pool => exact ⟨fun _ => trivial, fun _ => hs.destroyPool pool⟩

end Kept

/-- **Textures stay owned along a run** if and only if every object that is deleted fits. -/
theorem ownedAlong_iff (device : Nat) (calls : List TextureCall) :
    (∀ k, ((init device).run (calls.take k)).Owned) ↔
      Runs.Along TextureAllocator.step Fits (init device) calls :=
  Runs.forall_take_iff_along_of Kept (fun _ hs => hs.owned) (fun _ c hs hc => (hs.step c).2 hc)
    (fun _ c hs h => (hs.step c).1 h) calls _ (init_kept device)

/-! ## A pool that is too small -/

def smallTexture : TextureRequest := ⟨64, 64, 0, 21, .default, false⟩

/-- Callers hold `n` textures at once and then delete them all. -/
def flood (n : Nat) : List TextureCall :=
  List.replicate n (.create smallTexture 0 ⟨0, true⟩) ++ List.replicate n (.delete 0)

def GoesToPool (s : TextureAllocator) (t : PooledTexture) : Prop :=
  0 ≤ t.hr ∧ t.mDontPool = false ∧ t.creator = s.mDevice

theorem run_creates : ∀ (n : Nat) (s : TextureAllocator), s.mTexturePool = [] →
    (∀ t ∈ s.callers, s.GoesToPool t) →
    let s' := s.run (List.replicate n (.create smallTexture 0 ⟨0, true⟩))
    s'.mTexturePool = [] ∧ s'.callers.length = s.callers.length + n ∧
      ∀ t ∈ s'.callers, s'.GoesToPool t := by
  intro n
  induction n with
  | zero =>
    intro s hpool hcallers
    exact ⟨hpool, rfl, hcallers⟩
  | succ n ih =>
    intro s hpool hcallers
    have hstep : s.step (.create smallTexture 0 ⟨0, true⟩) =
        { s with
          callers := s.callers ++
            [PooledTexture.mk (some s.created) false 64 64 21 .default 0 false 0 s.mDevice 0]
          created := s.created + 1 } := by
      rw [TextureAllocator.step, createTexture, hpool]
      rfl
    have hnext := ih (s.step (.create smallTexture 0 ⟨0, true⟩))
    rw [hstep] at hnext
    obtain ⟨hpool', hlength, hcallers'⟩ := hnext hpool (by
      intro t ht
      rcases List.mem_append.mp ht with ht | ht
      · exact hcallers t ht
      · rw [List.mem_singleton.mp ht]
        exact ⟨Int.le_refl _, rfl, rfl⟩)
    rw [List.replicate_succ, run, Runs.run_cons, hstep]
    refine ⟨hpool', ?_, hcallers'⟩
    rw [run] at hlength
    rw [hlength, List.length_append, List.length_singleton]
    omega

theorem run_deletes : ∀ (n : Nat) (s : TextureAllocator), (∀ t ∈ s.callers, s.GoesToPool t) →
    n ≤ s.callers.length →
    (s.run (List.replicate n (.delete 0))).mTexturePool.length = s.mTexturePool.length + n := by
  intro n
  induction n with
  | zero =>
    intro s _ _
    rfl
  | succ n ih =>
    intro s hcallers hn
    cases hs : s.callers with
    | nil =>
      rw [hs] at hn
      cases hn
    | cons t callers =>
      rw [hs] at hcallers hn
      obtain ⟨hhr, hdont, hcreator⟩ := hcallers t (List.mem_cons_self ..)
      have hstep : s.step (.delete 0) =
          { s with mTexturePool := s.mTexturePool ++ [{ t with framePassed := 5 }]
                   callers := callers } := by
        rw [TextureAllocator.step, hs]
        show TextureAllocator.deleteTexture { s with callers := callers } t = _
        rw [deleteTexture, if_neg (Int.not_lt.mpr hhr), if_neg]
        rintro (h | h)
        · exact absurd (hdont.symm.trans h) Bool.false_ne_true
        · exact h hcreator
      have hnext := ih (s.step (.delete 0))
      rw [hstep] at hnext
      have hlength := hnext (fun u hu => hcallers u (List.mem_cons_of_mem _ hu))
        (Nat.le_of_succ_le_succ hn)
      rw [List.replicate_succ, run, Runs.run_cons, hstep]
      rw [run] at hlength
      rw [hlength, List.length_append, List.length_singleton]
      omega

/-- Callers that hold 1025 textures and delete them leave the array of the pool. -/
theorem pool_overruns : ((init 0).run (flood 1025)).mTexturePool.length = 1025 ∧
    ¬((init 0).run (flood 1025)).Owned := by
  obtain ⟨hpool, hlength, hcallers⟩ := run_creates 1025 (init 0) rfl
    (fun t ht => absurd ht List.not_mem_nil)
  have hdeletes := run_deletes 1025 _ hcallers (Nat.le_of_eq hlength.symm)
  have hfull : ((init 0).run (flood 1025)).mTexturePool.length = 1025 := by
    rw [flood, run, Runs.run_append]
    rw [hpool] at hdeletes
    exact hdeletes
  refine ⟨hfull, fun howned => ?_⟩
  have hroom := howned.room
  rw [hfull] at hroom
  exact absurd hroom (by decide)

/-- A pooled texture that cannot be locked again is given to a caller, and lost when he
deletes it. -/
example : (init 0).run [.create ⟨64, 64, 0, 21, .systemmem, false⟩ 0 ⟨0, false⟩, .delete 0,
      .afterFrameRender fun _ => ⟨-1, false⟩, .create ⟨64, 64, 0, 21, .systemmem, false⟩ 0
        ⟨0, true⟩,
      .delete 0] = ⟨0, [], [], 1, []⟩ := by
  decide

end TextureAllocator

end DWindow.Renderer
