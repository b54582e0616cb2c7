import DWindow.Lib.CString
import DWindow.Lib.Fallible
import Mathlib.Data.List.Nodup
import Mathlib.Data.List.Perm.Basic

/-!
# Shared download managers

`HTTPHook::create` and `HTTPHook::~HTTPHook` of `hookdshow.cpp` over the list of active
files.  Every call holds the lock of that list from its search to its end, so a run is a
sequence of whole calls, of any number of threads.

A manager is named by the number of `inet_file`s created before it.  What
`inet_file::setURL` answers is given with the call, and the conversion of a URL to UTF-8
is a parameter.  The URL goes into a buffer of 4096 bytes by `strcpy`, which does not look
at that size: a longer one has no result.  A reference count is a plain integer here, no
process has room for `2 ^ 31` hooks.
-/

namespace DWindow.Hook

/-- `active_httpfile_list_entry`, but `config_file`, which nothing reads. -/
structure ActiveHttpfileListEntry where
  refCount : Int
  manager : Nat
  urlUtf : List UInt8
deriving DecidableEq, Repr

/-- A live `HTTPHook`, and the URL it was created for. -/
structure HTTPHook where
  mCore : Nat
  url : List UInt16
deriving DecidableEq, Repr

/-- `g_active_httpfile_list` and the live hooks, and of the managers how many were created
and which were deleted, in order. -/
structure ActiveFiles where
  list : List ActiveHttpfileListEntry
  hooks : List HTTPHook
  created : Nat
  deleted : List Nat
deriving DecidableEq, Repr

/-- A call: `create`, with what `setURL` of a new manager would answer, or the destruction
of the live hook number `i`. -/
inductive HookCall
  | create (url : List UInt16) (setURL : Int)
  | destroy (i : Nat)
deriving DecidableEq, Repr

/-- `sizeof(entry.URL_utf)`. -/
def urlSize : Nat := 4096

/-- The search of `create`: the manager of the first entry with this URL, which gets one
more reference. -/
def share (utf : List UInt8) :
    List ActiveHttpfileListEntry → Option (Nat × List ActiveHttpfileListEntry)
  | [] => none
  | e :: list =>
    if e.urlUtf = utf then some (e.manager, { e with refCount := e.refCount + 1 } :: list)
    else (share utf list).map fun r => (r.1, e :: r.2)

/-- The loop of the destructor: the list without one reference to `p`, and what it
deletes. -/
def unshare (p : Nat) :
    List ActiveHttpfileListEntry → List ActiveHttpfileListEntry × List Nat
  | [] => ([], [])
  | e :: list =>
    if e.manager = p then
      if e.refCount - 1 = 0 then (list, [p])
      else ({ e with refCount := e.refCount - 1 } :: list, [])
    else (e :: (unshare p list).1, (unshare p list).2)

def uses (hooks : List HTTPHook) (p : Nat) : Nat := hooks.countP fun hook => hook.mCore == p

namespace ActiveFiles

def init : ActiveFiles := ⟨[], [], 0, []⟩

def create (w2utf8 : List UInt16 → List UInt8) (s : ActiveFiles) (url : List UInt16)
    (setURL : Int) : Option ActiveFiles :=
  match share (w2utf8 url) s.list with
  | some (p, list) => some { s with list := list, hooks := s.hooks ++ [⟨p, url⟩] }
  | none =>
    -- `strcpy(entry.URL_utf, URL_utf)`
    if urlSize ≤ (w2utf8 url).length then none
    else if setURL < 0 then
      some { s with created := s.created + 1, deleted := s.deleted ++ [s.created] }
    else
      some { s with list := s.list ++ [⟨1, s.created, w2utf8 url⟩],
                    hooks := s.hooks ++ [⟨s.created, url⟩], created := s.created + 1 }

/-- `HTTPHook::~HTTPHook`. -/
def destroy (s : ActiveFiles) (i : Nat) : ActiveFiles :=
  match s.hooks[i]? with
  | none => s
  | some hook =>
    { s with list := (unshare hook.mCore s.list).1, hooks := s.hooks.eraseIdx i,
             deleted := s.deleted ++ (unshare hook.mCore s.list).2 }

def step (w2utf8 : List UInt16 → List UInt8) (s : ActiveFiles) : HookCall → Option ActiveFiles
  | .create url setURL => s.create w2utf8 url setURL
  | .destroy i => some (s.destroy i)

def run (w2utf8 : List UInt16 → List UInt8) (calls : List HookCall) : Option ActiveFiles :=
  calls.foldlM (step w2utf8) init

/-- **References are counted.**  A count is the number of live hooks on its manager, live
hooks on one URL are on one manager, and the managers that are deleted, once each, are those
that no live hook is on. -/
structure Counted (s : ActiveFiles) : Prop where
  refCount : ∀ e ∈ s.list, e.refCount = uses s.hooks e.manager
  shared : ∀ h ∈ s.hooks, ∀ k ∈ s.hooks, h.url = k.url → h.mCore = k.mCore
  listed : ∀ h ∈ s.hooks, ∃ e ∈ s.list, e.manager = h.mCore
  once : s.deleted.Nodup
  deleted : ∀ p, p ∈ s.deleted ↔ p < s.created ∧ ∀ h ∈ s.hooks, h.mCore ≠ p

end ActiveFiles

/-! ## The two loops -/

theorem share_eq_none {utf : List UInt8} : ∀ {list : List ActiveHttpfileListEntry},
    share utf list = none ↔ (∀ e ∈ list, e.urlUtf ≠ utf) := by
  intro list
  induction list with
  | nil => exact ⟨fun _ e he => absurd he List.not_mem_nil, fun _ => rfl⟩
  | cons e list ih =>
    rw [share, List.forall_mem_cons]
    split
    · next h => exact iff_of_false (fun hn => nomatch hn) (fun hn => hn.1 h)
    · next h => rw [Option.map_eq_none_iff, ih, and_iff_right h]

theorem share_eq_some {utf : List UInt8} : ∀ {list list' : List ActiveHttpfileListEntry} {p : Nat},
    share utf list = some (p, list') → ∃ a e b, list = a ++ e :: b ∧ e.urlUtf = utf ∧
      e.manager = p ∧ list' = a ++ { e with refCount := e.refCount + 1 } :: b := by
  intro list
  induction list with
  | nil => intro list' p h; cases h
  | cons e list ih =>
    intro list' p h
    rw [share] at h
    split at h
    · next hurl =>
      cases h
      exact ⟨[], e, list, rfl, hurl, rfl, rfl⟩
    · obtain ⟨⟨q, l⟩, hl, hr⟩ := Option.map_eq_some_iff.mp h
      cases hr
      obtain ⟨a, f, b, rfl, hurl, hman, rfl⟩ := ih hl
      exact ⟨e :: a, f, b, rfl, hurl, hman, rfl⟩

theorem unshare_append {p : Nat} {e : ActiveHttpfileListEntry} (he : e.manager = p)
    (b : List ActiveHttpfileListEntry) : ∀ {a : List ActiveHttpfileListEntry},
    (∀ f ∈ a, f.manager ≠ p) → unshare p (a ++ e :: b) =
      if e.refCount - 1 = 0 then (a ++ b, [p])
      else (a ++ { e with refCount := e.refCount - 1 } :: b, []) := by
  intro a
  induction a with
  | nil =>
    intro _
    rw [List.nil_append, unshare, if_pos he]
    rfl
  | cons f a ih =>
    intro ha
    rw [List.forall_mem_cons] at ha
    rw [List.cons_append, unshare, if_neg ha.1, ih ha.2]
    split
    · rfl
    · rfl

namespace ActiveFiles

/-! ## What a call keeps -/

/-- What the calls keep of the list, the hooks and the managers. -/
structure Kept (w2utf8 : List UInt16 → List UInt8) (s : ActiveFiles) : Prop where
  counts : ∀ e ∈ s.list, e.refCount = uses s.hooks e.manager ∧ 0 < uses s.hooks e.manager
  urls : (s.list.map ActiveHttpfileListEntry.urlUtf).Nodup
  listed : ∀ h ∈ s.hooks, ∃ e ∈ s.list, e.manager = h.mCore ∧ e.urlUtf = w2utf8 h.url
  ledger : ∀ p, (s.list.map ActiveHttpfileListEntry.manager).count p + s.deleted.count p =
    if p < s.created then 1 else 0
  fits : ∀ e ∈ s.list, e.urlUtf.length < urlSize

variable {w2utf8 : List UInt16 → List UInt8} {s : ActiveFiles}

theorem init_kept : init.Kept w2utf8 := by
  refine ⟨?_, List.nodup_nil, ?_, fun p => rfl, ?_⟩
  · intro e he
    exact absurd he List.not_mem_nil
  · intro h hh
    exact absurd hh List.not_mem_nil
  · intro e he
    exact absurd he List.not_mem_nil

namespace Kept

theorem managers (hs : s.Kept w2utf8) : (s.list.map ActiveHttpfileListEntry.manager).Nodup := by
  rw [List.nodup_iff_count_le_one]
  intro p
  have hledger := hs.ledger p
  split at hledger
  · omega
  · omega

/-- **Every manager is counted.** -/
theorem counted (hs : s.Kept w2utf8) : s.Counted := by
  have hlist : ∀ p,
      p ∈ s.list.map ActiveHttpfileListEntry.manager ↔ ∃ h ∈ s.hooks, h.mCore = p := by
    intro p
    rw [List.mem_map]
    constructor
    · rintro ⟨e, he, rfl⟩
      obtain ⟨h, hh, hcore⟩ := List.countP_pos_iff.mp (hs.counts e he).2
      exact ⟨h, hh, beq_iff_eq.mp hcore⟩
    · rintro ⟨h, hh, rfl⟩
      obtain ⟨e, he, hman, -⟩ := hs.listed h hh
      exact ⟨e, he, hman⟩
  refine ⟨fun e he => (hs.counts e he).1, ?_, ?_, ?_, ?_⟩
  · intro h hh k hk hurl
    obtain ⟨e, he, hman, heurl⟩ := hs.listed h hh
    obtain ⟨f, hf, hman', hfurl⟩ := hs.listed k hk
    have hef : e = f := List.inj_on_of_nodup_map hs.urls he hf (by rw [heurl, hfurl, hurl])
    rw [← hman, ← hman', hef]
  · intro h hh
    obtain ⟨e, he, hman, -⟩ := hs.listed h hh
    exact ⟨e, he, hman⟩
  · rw [List.nodup_iff_count_le_one]
    intro p
    have hledger := hs.ledger p
    split at hledger
    · omega
    · omega
  · intro p
    have hledger := hs.ledger p
    have hpos := List.count_pos_iff (a := p) (l := s.deleted)
    have hposl := List.count_pos_iff (a := p) (l := s.list.map ActiveHttpfileListEntry.manager)
    rw [hlist] at hposl
    have hnone : (∀ h ∈ s.hooks, h.mCore ≠ p) ↔ ¬∃ h ∈ s.hooks, h.mCore = p := by
      push Not
      exact Iff.rfl
    rw [hnone, ← hposl, ← hpos]
    split at hledger
    · next hlt => exact ⟨fun h => ⟨hlt, by omega⟩, fun h => by omega⟩
    · next hlt => exact ⟨fun h => by omega, fun h => absurd h.1 hlt⟩

end Kept

theorem uses_append (hooks : List HTTPHook) (hook : HTTPHook) (p : Nat) :
    uses (hooks ++ [hook]) p = uses hooks p + if hook.mCore = p then 1 else 0 := by
  rw [uses, List.countP_append, List.countP_singleton]
  simp only [beq_iff_eq]
  rfl

theorem uses_eraseIdx {hooks : List HTTPHook} {i : Nat} {hook : HTTPHook}
    (h : hooks[i]? = some hook) (p : Nat) :
    uses (hooks.eraseIdx i) p + (if hook.mCore = p then 1 else 0) = uses hooks p := by
  obtain ⟨hi, rfl⟩ := List.getElem?_eq_some_iff.mp h
  have hperm := (List.getElem_cons_eraseIdx_perm hi).countP_eq fun hook => hook.mCore == p
  rw [List.countP_cons] at hperm
  simp only [beq_iff_eq] at hperm
  exact hperm

theorem Kept.others (hs : s.Kept w2utf8) {a b : List ActiveHttpfileListEntry}
    {e : ActiveHttpfileListEntry} (hlist : s.list = a ++ e :: b) :
    ∀ f ∈ a ++ b, f.manager ≠ e.manager := by
  have hnodup := hs.managers
  rw [hlist, List.map_append, List.map_cons, List.nodup_middle, List.nodup_cons, ← List.map_append]
    at hnodup
  intro f hf h
  exact hnodup.1 (List.mem_map.mpr ⟨f, hf, h⟩)

theorem mem_middle {α : Type*} {a b : List α} {e f : α} (h : f ∈ a ++ e :: b) :
    f = e ∨ f ∈ a ++ b := by
  rw [List.mem_append, List.mem_cons] at h
  rw [List.mem_append]
  tauto

theorem mem_of_mem_append {α : Type*} {a b : List α} (e : α) {f : α} (h : f ∈ a ++ b) :
    f ∈ a ++ e :: b := by
  rcases List.mem_append.mp h with h | h
  · exact List.mem_append_left _ h
  · exact List.mem_append_right _ (List.mem_cons_of_mem _ h)

theorem Kept.share (hs : s.Kept w2utf8) {url : List UInt16} {p : Nat}
    {list : List ActiveHttpfileListEntry} (h : Hook.share (w2utf8 url) s.list = some (p, list)) :
    { s with list := list, hooks := s.hooks ++ [HTTPHook.mk p url] }.Kept w2utf8 := by
  obtain ⟨a, e, b, hlist, hurl, rfl, rfl⟩ := share_eq_some h
  have hmem : e ∈ s.list := by
    rw [hlist]
    exact List.mem_append_right _ (List.mem_cons_self ..)
  have hother : ∀ f ∈ a ++ b, f ∈ s.list := by
    intro f hf
    rw [hlist]
    exact mem_of_mem_append e hf
  have hmanagers : (a ++ { e with refCount := e.refCount + 1 } :: b).map
      ActiveHttpfileListEntry.manager = s.list.map ActiveHttpfileListEntry.manager := by
    rw [hlist, List.map_append, List.map_append]
    rfl
  have hurls : (a ++ { e with refCount := e.refCount + 1 } :: b).map
      ActiveHttpfileListEntry.urlUtf = s.list.map ActiveHttpfileListEntry.urlUtf := by
    rw [hlist, List.map_append, List.map_append]
    rfl
  refine ⟨fun f hf => ?_, ?_, fun k hk => ?_, fun q => ?_, fun f hf => ?_⟩
  · show f.refCount = uses (s.hooks ++ [⟨e.manager, url⟩]) f.manager ∧
      0 < uses (s.hooks ++ [⟨e.manager, url⟩]) f.manager
    rw [uses_append]
    rcases mem_middle hf with rfl | hf
    · have hcount := hs.counts e hmem
      show e.refCount + 1 = _ ∧ _
      rw [if_pos rfl, hcount.1]
      exact ⟨rfl, Nat.succ_pos _⟩
    · rw [if_neg fun h => hs.others hlist f hf h.symm]
      exact hs.counts f (hother f hf)
  · rw [hurls]
    exact hs.urls
  · have hfound : ∃ f ∈ s.list, f.manager = k.mCore ∧ f.urlUtf = w2utf8 k.url := by
      rcases List.mem_append.mp hk with hk | hk
      · exact hs.listed k hk
      · rw [List.mem_singleton.mp hk]
        exact ⟨e, hmem, rfl, hurl⟩
    obtain ⟨f, hf, hman, hfurl⟩ := hfound
    rw [hlist] at hf
    rcases mem_middle hf with rfl | hf
    · exact ⟨_, List.mem_append_right _ (List.mem_cons_self ..), hman, hfurl⟩
    · exact ⟨f, mem_of_mem_append _ hf, hman, hfurl⟩
  · rw [hmanagers]
    exact hs.ledger q
  · rcases mem_middle hf with rfl | hf
    · exact hs.fits e hmem
    · exact hs.fits f (hother f hf)

theorem Kept.fail (hs : s.Kept w2utf8) :
    { s with created := s.created + 1, deleted := s.deleted ++ [s.created] }.Kept w2utf8 := by
  refine ⟨hs.counts, hs.urls, hs.listed, fun p => ?_, hs.fits⟩
  have hledger := hs.ledger p
  show _ + (s.deleted ++ [s.created]).count p = if p < s.created + 1 then 1 else 0
  rw [List.count_append, List.count_singleton, ← Nat.add_assoc, hledger]
  simp only [beq_iff_eq]
  split
  · rw [if_neg (by omega), if_pos (by omega)]
  · split
    · rw [if_pos (by omega)]
    · rw [if_neg (by omega)]

theorem Kept.lt_created (hs : s.Kept w2utf8) : ∀ e ∈ s.list, e.manager < s.created := by
  intro e he
  have hledger := hs.ledger e.manager
  have hpos :=
    List.count_pos_iff.mpr (List.mem_map_of_mem (f := ActiveHttpfileListEntry.manager) he)
  split at hledger
  · next h => exact h
  · omega

theorem Kept.add (hs : s.Kept w2utf8) {url : List UInt16}
    (hnew : ∀ e ∈ s.list, e.urlUtf ≠ w2utf8 url) (hfits : (w2utf8 url).length < urlSize) :
    { s with list := s.list ++ [ActiveHttpfileListEntry.mk 1 s.created (w2utf8 url)],
             hooks := s.hooks ++ [HTTPHook.mk s.created url],
             created := s.created + 1 }.Kept w2utf8 := by
  have hnone : uses s.hooks s.created = 0 := by
    rw [uses, List.countP_eq_zero]
    intro h hh hcore
    obtain ⟨e, he, hman, -⟩ := hs.listed h hh
    have hself := hs.lt_created e he
    rw [hman, beq_iff_eq.mp hcore] at hself
    exact Nat.lt_irrefl _ hself
  refine ⟨fun f hf => ?_, ?_, fun k hk => ?_, fun q => ?_, fun f hf => ?_⟩
  · show f.refCount = uses (s.hooks ++ [HTTPHook.mk s.created url]) f.manager ∧
      0 < uses (s.hooks ++ [HTTPHook.mk s.created url]) f.manager
    rw [uses_append]
    rcases List.mem_append.mp hf with hf | hf
    · rw [if_neg (Nat.ne_of_gt (hs.lt_created f hf))]
      exact hs.counts f hf
    · rw [List.mem_singleton.mp hf, if_pos rfl, hnone]
      exact ⟨rfl, Nat.one_pos⟩
  · rw [List.map_append, List.nodup_append]
    refine ⟨hs.urls, List.nodup_singleton _, ?_⟩
    intro u hu v hv huv
    obtain ⟨e, he, rfl⟩ := List.mem_map.mp hu
    rw [List.mem_singleton.mp hv] at huv
    exact hnew e he huv
  · rcases List.mem_append.mp hk with hk | hk
    · obtain ⟨e, he, h⟩ := hs.listed k hk
      exact ⟨e, List.mem_append_left _ he, h⟩
    · rw [List.mem_singleton.mp hk]
      exact ⟨_, List.mem_append_right _ (List.mem_singleton_self _), rfl, rfl⟩
  · have hledger := hs.ledger q
    rw [List.map_append, List.count_append, Nat.add_right_comm, hledger]
    show _ + List.count q [s.created] = if q < s.created + 1 then 1 else 0
    rw [List.count_singleton]
    simp only [beq_iff_eq]
    split
    · rw [if_neg (by omega), if_pos (by omega)]
    · split
      · rw [if_pos (by omega)]
      · rw [if_neg (by omega)]
  · rcases List.mem_append.mp hf with hf | hf
    · exact hs.fits f hf
    · rw [List.mem_singleton.mp hf]
      exact hfits

section destroy

variable {i : Nat} {hook : HTTPHook} {a b : List ActiveHttpfileListEntry}
  {e : ActiveHttpfileListEntry}

theorem Kept.uses_others (hs : s.Kept w2utf8) (hget : s.hooks[i]? = some hook)
    (hlist : s.list = a ++ e :: b) (hman : e.manager = hook.mCore) : ∀ f ∈ a ++ b,
    f ∈ s.list ∧ uses (s.hooks.eraseIdx i) f.manager = uses s.hooks f.manager := by
  intro f hf
  refine ⟨?_, ?_⟩
  · rw [hlist]
    exact mem_of_mem_append e hf
  · have hne : hook.mCore ≠ f.manager := by
      rw [← hman]
      exact (hs.others hlist f hf).symm
    have huses := uses_eraseIdx hget f.manager
    rw [if_neg hne] at huses
    exact huses

theorem Kept.destroy_last (hs : s.Kept w2utf8) (hget : s.hooks[i]? = some hook)
    (hlist : s.list = a ++ e :: b) (hman : e.manager = hook.mCore) (hzero : e.refCount - 1 = 0) :
    { s with list := a ++ b, hooks := s.hooks.eraseIdx i,
             deleted := s.deleted ++ [hook.mCore] }.Kept w2utf8 := by
  have hother := hs.uses_others hget hlist hman
  have hcount := hs.counts e (by rw [hlist]; exact List.mem_append_right _ (List.mem_cons_self ..))
  have hone := uses_eraseIdx hget e.manager
  rw [if_pos hman.symm] at hone
  have hnone : uses (s.hooks.eraseIdx i) e.manager = 0 := by omega
  refine ⟨fun f hf => ?_, ?_, fun k hk => ?_, fun q => ?_, fun f hf => hs.fits f (hother f hf).1⟩
  · show f.refCount = uses (s.hooks.eraseIdx i) f.manager ∧ 0 < uses (s.hooks.eraseIdx i) f.manager
    rw [(hother f hf).2]
    exact hs.counts f (hother f hf).1
  · have hurls := hs.urls
    rw [hlist, List.map_append, List.map_cons, List.nodup_middle] at hurls
    rw [List.map_append]
    exact (List.nodup_cons.mp hurls).2
  · obtain ⟨f, hf, hfman, hfurl⟩ := hs.listed k (List.mem_of_mem_eraseIdx hk)
    rw [hlist] at hf
    rcases mem_middle hf with rfl | hf
    · rw [uses, List.countP_eq_zero] at hnone
      exact absurd (beq_iff_eq.mpr hfman.symm) (hnone k hk)
    · exact ⟨f, hf, hfman, hfurl⟩
  · have hledger := hs.ledger q
    rw [hlist, List.map_append, List.map_cons, List.count_append, List.count_cons] at hledger
    rw [List.map_append, List.count_append, List.count_append, List.count_singleton, ← hman]
    show _ = if q < s.created then 1 else 0
    omega

theorem Kept.destroy_one (hs : s.Kept w2utf8) (hget : s.hooks[i]? = some hook)
    (hlist : s.list = a ++ e :: b) (hman : e.manager = hook.mCore) (hzero : e.refCount - 1 ≠ 0) :
    { s with list := a ++ { e with refCount := e.refCount - 1 } :: b,
             hooks := s.hooks.eraseIdx i }.Kept w2utf8 := by
  have hother := hs.uses_others hget hlist hman
  have he : e ∈ s.list := by
    rw [hlist]
    exact List.mem_append_right _ (List.mem_cons_self ..)
  have hcount := hs.counts e he
  have hone := uses_eraseIdx hget e.manager
  rw [if_pos hman.symm] at hone
  have hmanagers : (a ++ { e with refCount := e.refCount - 1 } :: b).map
      ActiveHttpfileListEntry.manager = s.list.map ActiveHttpfileListEntry.manager := by
    rw [hlist, List.map_append, List.map_append]
    rfl
  have hurls : (a ++ { e with refCount := e.refCount - 1 } :: b).map
      ActiveHttpfileListEntry.urlUtf = s.list.map ActiveHttpfileListEntry.urlUtf := by
    rw [hlist, List.map_append, List.map_append]
    rfl
  refine ⟨fun f hf => ?_, ?_, fun k hk => ?_, fun q => ?_, fun f hf => ?_⟩
  · show f.refCount = uses (s.hooks.eraseIdx i) f.manager ∧ 0 < uses (s.hooks.eraseIdx i) f.manager
    rcases mem_middle hf with rfl | hf
    · show e.refCount - 1 = uses (s.hooks.eraseIdx i) e.manager ∧
        0 < uses (s.hooks.eraseIdx i) e.manager
      omega
    · rw [(hother f hf).2]
      exact hs.counts f (hother f hf).1
  · rw [hurls]
    exact hs.urls
  · obtain ⟨f, hf, hfman, hfurl⟩ := hs.listed k (List.mem_of_mem_eraseIdx hk)
    rw [hlist] at hf
    rcases mem_middle hf with rfl | hf
    · exact ⟨_, List.mem_append_right _ (List.mem_cons_self ..), hfman, hfurl⟩
    · exact ⟨f, mem_of_mem_append _ hf, hfman, hfurl⟩
  · rw [hmanagers]
    exact hs.ledger q
  · rcases mem_middle hf with rfl | hf
    · exact hs.fits e he
    · exact hs.fits f (hother f hf).1

end destroy

/-- **A destroyed hook gives back its reference.** -/
theorem Kept.destroy (hs : s.Kept w2utf8) (i : Nat) : (s.destroy i).Kept w2utf8 := by
  rw [ActiveFiles.destroy]
  cases hget : s.hooks[i]? with
  | none => exact hs
  | some hook =>
    obtain ⟨e, he, hman, -⟩ := hs.listed hook (List.mem_of_getElem? hget)
    obtain ⟨a, b, hlist⟩ := List.append_of_mem he
    have hfirst : ∀ f ∈ a, f.manager ≠ hook.mCore := by
      intro f hf
      rw [← hman]
      exact hs.others hlist f (List.mem_append_left _ hf)
    have hunshare := unshare_append hman b hfirst
    rw [← hlist] at hunshare
    split at hunshare
    · next hzero =>
      simp only [hunshare]
      exact hs.destroy_last hget hlist hman hzero
    · next hzero =>
      simp only [hunshare, List.append_nil]
      exact hs.destroy_one hget hlist hman hzero

/-- **A call** has a result if and only if its URL fits, and keeps the counts. -/
theorem Kept.step (hs : s.Kept w2utf8) (c : HookCall) :
    ((∃ s', s.step w2utf8 c = some s') ↔
      ∀ url setURL, c = .create url setURL → (w2utf8 url).length < urlSize) ∧
    ∀ s', s.step w2utf8 c = some s' → s'.Kept w2utf8 := by
  cases c with
  | destroy i =>
    refine ⟨iff_of_true ⟨_, rfl⟩ (fun url setURL h => nomatch h), fun s' h => ?_⟩
    cases h
    exact hs.destroy i
  | create url setURL =>
    have hone : (∀ u r, HookCall.create url setURL = .create u r → (w2utf8 u).length < urlSize) ↔
        (w2utf8 url).length < urlSize := by
      constructor
      · exact fun h => h url setURL rfl
      · rintro h u r hur
        cases hur
        exact h
    rw [hone, ActiveFiles.step, ActiveFiles.create]
    cases hshare : Hook.share (w2utf8 url) s.list with
    | some r =>
      obtain ⟨p, list⟩ := r
      have hfits : (w2utf8 url).length < urlSize := by
        obtain ⟨a, e, b, hlist, hurl, -, -⟩ := share_eq_some hshare
        rw [← hurl]
        refine hs.fits e ?_
        rw [hlist]
        exact List.mem_append_right _ (List.mem_cons_self ..)
      refine ⟨iff_of_true ⟨_, rfl⟩ hfits, fun s' h => ?_⟩
      cases h
      exact hs.share hshare
    | none =>
      by_cases hfits : urlSize ≤ (w2utf8 url).length
      · simp only [if_pos hfits]
        exact ⟨iff_of_false (fun ⟨s', h⟩ => nomatch h) (Nat.not_lt.mpr hfits),
          fun s' h => nomatch h⟩
      · simp only [if_neg hfits]
        refine ⟨iff_of_true ?_ (Nat.lt_of_not_le hfits), fun s' h => ?_⟩
        · split
          · exact ⟨_, rfl⟩
          · exact ⟨_, rfl⟩
        · split at h
          · cases h
            exact hs.fail
          · cases h
            exact hs.add (share_eq_none.mp hshare) (Nat.lt_of_not_le hfits)

/-! ## Runs -/

theorem exists_foldlM_iff : ∀ (calls : List HookCall) (s : ActiveFiles), s.Kept w2utf8 →
    ((∃ s', calls.foldlM (ActiveFiles.step w2utf8) s = some s') ↔
      ∀ url setURL, .create url setURL ∈ calls → (w2utf8 url).length < urlSize) := by
  intro calls
  induction calls with
  | nil =>
    intro s hs
    exact iff_of_true ⟨s, rfl⟩ fun url setURL h => absurd h List.not_mem_nil
  | cons c calls ih =>
    intro s hs
    obtain ⟨hsome, hkept⟩ := hs.step c
    constructor
    · rintro ⟨s', h⟩ url setURL hmem
      rw [List.foldlM_cons, Option.bind_eq_bind, Option.bind_eq_some_iff] at h
      obtain ⟨t, ht, h⟩ := h
      rcases List.mem_cons.mp hmem with hc | hmem
      · exact hsome.mp ⟨t, ht⟩ url setURL hc.symm
      · exact (ih t (hkept t ht)).mp ⟨s', h⟩ url setURL hmem
    · intro h
      obtain ⟨t, ht⟩ := hsome.mpr fun url setURL hc => h url setURL (hc ▸ List.mem_cons_self ..)
      obtain ⟨s', hs'⟩ := (ih t (hkept t ht)).mpr fun url setURL hmem =>
        h url setURL (List.mem_cons_of_mem _ hmem)
      exact ⟨s', by rw [List.foldlM_cons, ht]; exact hs'⟩

theorem run_kept {calls : List HookCall} (h : run w2utf8 calls = some s) : s.Kept w2utf8 :=
  Fallible.foldlM_invariant (Kept w2utf8) (fun _ c _ ht hstep => (ht.step c).2 _ hstep) calls init s
    init_kept h

/-- **Shared managers are counted.**  In any sequence of calls the counts are right after
every call if and only if every URL fits into its buffer. -/
theorem counted_iff (w2utf8 : List UInt16 → List UInt8) (calls : List HookCall) :
    (∀ k, ∃ s, run w2utf8 (calls.take k) = some s ∧ s.Counted) ↔
      ∀ url setURL, .create url setURL ∈ calls → (w2utf8 url).length < urlSize := by
  constructor
  · intro h
    obtain ⟨s, hs, -⟩ := h calls.length
    rw [List.take_length] at hs
    exact (exists_foldlM_iff calls init init_kept).mp ⟨s, hs⟩
  · intro h k
    obtain ⟨s, hs⟩ := (exists_foldlM_iff (calls.take k) init init_kept).mpr
      fun url setURL hmem => h url setURL (List.mem_of_mem_take hmem)
    exact ⟨s, hs, (run_kept hs).counted⟩

/-- Two hooks share a manager, a third one is destroyed before it is created again. -/
example : (run (fun url => url.map UInt16.toUInt8)
      [.create [97] 0, .create [98] 0, .create [97] 0, .create [99] (-2), .destroy 1,
        .create [98] 0, .destroy 0]).map (fun s => (s.list, s.hooks, s.deleted)) =
    some ([⟨1, 0, [97]⟩, ⟨1, 3, [98]⟩], [⟨0, [97]⟩, ⟨3, [98]⟩], [2, 1]) := by
  decide

/-- A URL of 4096 characters is written behind the end of its buffer. -/
theorem long_url_overruns : ¬∃ s,
    run (fun url => url.map UInt16.toUInt8) [.create (List.replicate 4096 97) 0] = some s := by
  rintro ⟨s, h⟩
  have hlong : urlSize ≤ ((List.replicate 4096 (97 : UInt16)).map UInt16.toUInt8).length := by
    rw [List.length_map, List.length_replicate]
    exact Nat.le_refl _
  rw [run, List.foldlM_cons, ActiveFiles.step, ActiveFiles.create, init, Hook.share] at h
  simp only [if_pos hlong] at h
  cases h

end ActiveFiles

end DWindow.Hook
