import DWindow.Lib.Runs
import Mathlib.Data.List.Nodup

/-!
# Passkeys of a user

`gen_key.php` replaces the passkey of a user in three statements without a transaction: it
copies the user's rows of `active_passkeys` to `dropped_passkeys`, deletes them, and inserts a
new one.  A step here is one statement of one of the requests.  The statements before these
three read tables that nobody writes, and end in a refusal or with the generated passkey, which
has been looked for in `dropped_passkeys`.

The three statements of two requests of one user must not mix (`passkeys_valid`): otherwise two
rows stay active, or one is deleted that nobody has copied (`both_active`).

Two names are the same user when the database takes them for equal.
-/

namespace DWindow.Php

open Runs

variable {User Passkey : Type*}

/-- A row of `active_passkeys` or `dropped_passkeys`. -/
structure PasskeyRow (User Passkey : Type*) where
  id : Nat
  passkey : Passkey
  user : User
deriving DecidableEq

/-- How far a request of `gen_key.php` has come. -/
inductive KeyStage (User Passkey : Type*)
  | checking (user : User)
  | copying (user : User) (passkey : Passkey)
  | deleting (user : User) (passkey : Passkey)
  | inserting (user : User) (passkey : Passkey)
  | ended
deriving DecidableEq

/-- The two tables with the next `AUTO_INCREMENT` value, and the requests; beside it every row
that was ever inserted. -/
structure Passkeys (User Passkey : Type*) where
  active : List (PasskeyRow User Passkey)
  dropped : List (PasskeyRow User Passkey)
  nextId : Nat
  requests : List (KeyStage User Passkey)
  inserted : List (PasskeyRow User Passkey)

/-- A new request; a request that is refused, generates a passkey and looks for it in
`dropped_passkeys`, or executes the next of its three statements. -/
inductive KeyEvent (User Passkey : Type*)
  | start (user : User)
  | refuse (r : Nat)
  | test (r : Nat) (passkey : Passkey)
  | statement (r : Nat)

/-- What `reg_check.php` answers to a passkey. -/
inductive RegAnswer
  | sOk
  | eFail
  | sFalse
deriving DecidableEq

namespace KeyStage

/-- The passkey that a request is going to insert. -/
def pending : KeyStage User Passkey → Option Passkey
  | copying _ passkey | deleting _ passkey | inserting _ passkey => some passkey
  | _ => none

def copies : KeyStage User Passkey → Option User
  | copying user _ => some user
  | _ => none

/-- The user whose rows a request has copied, while the new one is missing. -/
def replaces : KeyStage User Passkey → Option User
  | deleting user _ | inserting user _ => some user
  | _ => none

end KeyStage

namespace Passkeys

def init : Passkeys User Passkey := ⟨[], [], 0, [], []⟩

section Tables

variable [DecidableEq User] [DecidableEq Passkey] (s : Passkeys User Passkey)

/-- `INSERT INTO dropped_passkeys SELECT * FROM active_passkeys WHERE user=…`, which fails when
an `id` is there already. -/
def copy (user : User) : Passkeys User Passkey :=
  let rows := s.active.filter fun row => row.user = user
  if rows.any fun row => s.dropped.any fun d => d.id = row.id then s
  else { s with dropped := s.dropped ++ rows }

/-- `delete FROM active_passkeys WHERE user=…`. -/
def delete (user : User) : Passkeys User Passkey :=
  { s with active := s.active.filter fun row => row.user ≠ user }

/-- `INSERT INTO active_passkeys (passkey, user) values(…)`. -/
def insert (passkey : Passkey) (user : User) : Passkeys User Passkey :=
  { s with
    active := s.active ++ [⟨s.nextId, passkey, user⟩]
    nextId := s.nextId + 1
    inserted := s.inserted ++ [⟨s.nextId, passkey, user⟩] }

def goTo (r : Nat) (q : KeyStage User Passkey) : Passkeys User Passkey :=
  { s with requests := s.requests.set r q }

def statement (r : Nat) : KeyStage User Passkey → Passkeys User Passkey
  | .copying user passkey => (s.copy user).goTo r (.deleting user passkey)
  | .deleting user passkey => (s.delete user).goTo r (.inserting user passkey)
  | .inserting user passkey => (s.insert passkey user).goTo r .ended
  | _ => s

/-- The test of a new passkey: it is taken when it is not in `dropped_passkeys`, and another one
is generated otherwise. -/
def test (r : Nat) (passkey : Passkey) : KeyStage User Passkey → Passkeys User Passkey
  | .checking user =>
    if s.dropped.any fun d => d.passkey = passkey then s else s.goTo r (.copying user passkey)
  | _ => s

def step : KeyEvent User Passkey → Passkeys User Passkey
  | .start user => { s with requests := s.requests ++ [.checking user] }
  | .refuse r =>
    match s.requests[r]? with
    | some (.checking _) => s.goTo r .ended
    | _ => s
  | .test r passkey => (s.requests[r]?.map (s.test r passkey)).getD s
  | .statement r => (s.requests[r]?.map (s.statement r)).getD s

/-- `reg_check.php` on a passkey; its user is in the table of users. -/
def regCheck (passkey : Passkey) : RegAnswer :=
  if s.active.any fun row => row.passkey = passkey then .sOk
  else if s.dropped.any fun row => row.passkey = passkey then .eFail
  else .sFalse

/-- The last row that was inserted for the user. -/
def newest (user : User) : Option (PasskeyRow User Passkey) :=
  (s.inserted.filter fun row => row.user = user).getLast?

def Idle : Prop := ∀ q ∈ s.requests, q = .ended

/-- **A user has one valid passkey**: at most one row is active, the newest passkey is accepted,
and every other one is among the dropped ones and refused. -/
structure Valid : Prop where
  one : ∀ user, (s.active.filter fun row => row.user = user).length ≤ 1
  newest : ∀ user, ∀ row ∈ s.newest user, s.regCheck row.passkey = .sOk
  replaced : ∀ user, ∀ row ∈ s.inserted, row.user = user → row ∉ s.newest user →
    (∃ d ∈ s.dropped, d.passkey = row.passkey ∧ d.user = user) ∧ s.regCheck row.passkey = .eFail

/-- A passkey is new when it is generated, and a request copies the rows of a user when no other
request has copied them and not inserted the new one yet. -/
def Alone : KeyEvent User Passkey → Prop
  | .test _ passkey => (∀ row ∈ s.inserted, row.passkey ≠ passkey) ∧
      ∀ q ∈ s.requests, passkey ∉ q.pending
  | .statement r => ∀ q ∈ s.requests[r]?, ∀ user ∈ q.copies, ∀ q' ∈ s.requests,
      user ∉ q'.replaces
  | _ => True

instance decidableAlone : ∀ e, Decidable (s.Alone e)
  | .test _ passkey => inferInstanceAs (Decidable ((∀ row ∈ s.inserted, row.passkey ≠ passkey) ∧
      ∀ q ∈ s.requests, passkey ∉ q.pending))
  | .statement r => inferInstanceAs (Decidable (∀ q ∈ s.requests[r]?, ∀ user ∈ q.copies,
      ∀ q' ∈ s.requests, user ∉ q'.replaces))
  | .start _ => isTrue trivial
  | .refuse _ => isTrue trivial

end Tables

/-! ## What a statement keeps -/

section Keeps

variable [DecidableEq User] {s : Passkeys User Passkey}

/-- The rows of a user whose passkey is not being replaced: the newest one is active, all others
are dropped. -/
structure Settled (s : Passkeys User Passkey) (user : User) : Prop where
  active : (s.active.filter fun row => row.user = user) = (s.newest user).toList
  dropped : ∀ row ∈ s.inserted, row.user = user → (row ∈ s.dropped ↔ row ∉ s.newest user)

/-- All rows of a user are dropped, and these are still active. -/
structure Copied (s : Passkeys User Passkey) (user : User)
    (active : List (PasskeyRow User Passkey)) : Prop where
  active : (s.active.filter fun row => row.user = user) = active
  dropped : ∀ row ∈ s.inserted, row.user = user → row ∈ s.dropped

theorem Settled.goTo {user : User} (h : s.Settled user) (l : List (KeyStage User Passkey)) :
    Settled { s with requests := l } user := ⟨h.active, h.dropped⟩

theorem Copied.goTo {user : User} {active : List (PasskeyRow User Passkey)}
    (h : s.Copied user active) (l : List (KeyStage User Passkey)) :
    Copied { s with requests := l } user active := ⟨h.active, h.dropped⟩

/-- The invariant: no two requests replace the passkey of one user, and the tables are what the
requests have made of them so far. -/
structure Inv (s : Passkeys User Passkey) : Prop where
  ids : s.inserted.map PasskeyRow.id = List.range s.nextId
  keys : (s.requests.filterMap KeyStage.pending ++ s.inserted.map PasskeyRow.passkey).Nodup
  alone : (s.requests.filterMap KeyStage.replaces).Nodup
  subset : ∀ d ∈ s.dropped, d ∈ s.inserted
  settled : ∀ user, user ∉ s.requests.filterMap KeyStage.replaces → s.Settled user
  deleting : ∀ user passkey, .deleting user passkey ∈ s.requests →
    s.Copied user (s.newest user).toList
  inserting : ∀ user passkey, .inserting user passkey ∈ s.requests → s.Copied user []

theorem exists_split {α : Type*} {l : List α} {r : Nat} {q : α} (h : l[r]? = some q) :
    ∃ rest, l.Perm (q :: rest) ∧ ∀ q', (l.set r q').Perm (q' :: rest) := by
  obtain ⟨hr, rfl⟩ := List.getElem?_eq_some_iff.mp h
  refine ⟨l.take r ++ l.drop (r + 1), ?_, fun q' => ?_⟩
  · have hl : l.take r ++ l[r] :: l.drop (r + 1) = l := by
      rw [List.getElem_cons_drop, List.take_append_drop]
    have hperm : (l.take r ++ l[r] :: l.drop (r + 1)).Perm (l[r] :: (l.take r ++ l.drop (r + 1))) :=
      List.perm_middle
    rwa [hl] at hperm
  · rw [List.set_eq_take_append_cons_drop, if_pos hr]
    exact List.perm_middle

theorem mem_newest {user : User} {row : PasskeyRow User Passkey} (h : row ∈ s.newest user) :
    row ∈ s.inserted ∧ row.user = user := by
  have hmem := List.mem_filter.mp (List.mem_of_mem_getLast? h)
  exact ⟨hmem.1, of_decide_eq_true hmem.2⟩

theorem Inv.eq_of_id (h : s.Inv) {row d : PasskeyRow User Passkey} (hrow : row ∈ s.inserted)
    (hd : d ∈ s.inserted) (heq : d.id = row.id) : d = row := by
  have hnodup : (s.inserted.map PasskeyRow.id).Nodup := by
    rw [h.ids]
    exact List.nodup_range
  exact List.inj_on_of_nodup_map hnodup hd hrow heq

theorem Inv.eq_of_passkey (h : s.Inv) {row d : PasskeyRow User Passkey} (hrow : row ∈ s.inserted)
    (hd : d ∈ s.inserted) (heq : d.passkey = row.passkey) : d = row :=
  List.inj_on_of_nodup_map h.keys.of_append_right hd hrow heq

theorem Inv.active_subset (h : s.Inv) {row : PasskeyRow User Passkey} (hrow : row ∈ s.active) :
    row ∈ s.inserted := by
  have hmem : row ∈ s.active.filter fun d => d.user = row.user :=
    List.mem_filter.mpr ⟨hrow, decide_eq_true rfl⟩
  by_cases hin : row.user ∈ s.requests.filterMap KeyStage.replaces
  · obtain ⟨q, hq, hreplaces⟩ := List.mem_filterMap.mp hin
    cases q with
    | deleting user passkey =>
      cases hreplaces
      rw [(h.deleting _ _ hq).active, Option.mem_toList] at hmem
      exact (mem_newest hmem).1
    | inserting user passkey =>
      cases hreplaces
      rw [(h.inserting _ _ hq).active] at hmem
      exact absurd hmem List.not_mem_nil
    | checking | copying | ended => cases hreplaces
  · rw [(h.settled _ hin).active, Option.mem_toList] at hmem
    exact (mem_newest hmem).1

/-- **The passkeys are valid** when no request is in progress. -/
theorem Inv.valid [DecidableEq Passkey] (h : s.Inv) (hidle : s.Idle) : s.Valid := by
  have hsettled : ∀ user, s.Settled user := by
    intro user
    refine h.settled user fun hin => ?_
    obtain ⟨q, hq, hreplaces⟩ := List.mem_filterMap.mp hin
    rw [hidle q hq] at hreplaces
    cases hreplaces
  refine ⟨fun user => ?_, fun user row hrow => ?_, fun user row hrow huser hnew => ?_⟩
  · rw [(hsettled user).active]
    cases s.newest user with
    | none => exact Nat.zero_le _
    | some row => exact Nat.le_refl _
  · have hactive : row ∈ s.active := by
      have hmem : row ∈ s.active.filter fun d => d.user = user := by
        rw [(hsettled user).active]
        exact Option.mem_toList.mpr hrow
      exact (List.mem_filter.mp hmem).1
    rw [regCheck, if_pos (List.any_eq_true.mpr ⟨row, hactive, decide_eq_true rfl⟩)]
  · have hdropped : row ∈ s.dropped := ((hsettled user).dropped row hrow huser).mpr hnew
    refine ⟨⟨row, hdropped, rfl, huser⟩, ?_⟩
    rw [regCheck, if_neg, if_pos (List.any_eq_true.mpr ⟨row, hdropped, decide_eq_true rfl⟩)]
    rw [List.any_eq_true]
    rintro ⟨d, hd, heq⟩
    have hdrow := h.eq_of_passkey hrow (h.active_subset hd) (of_decide_eq_true heq)
    rw [hdrow] at hd
    have hmem : row ∈ s.active.filter fun d => d.user = user :=
      List.mem_filter.mpr ⟨hd, decide_eq_true huser⟩
    rw [(hsettled user).active, Option.mem_toList] at hmem
    exact hnew hmem

theorem Inv.perm (h : s.Inv) {l : List (KeyStage User Passkey)} (hl : s.requests.Perm l) :
    Inv { s with requests := l } where
  ids := h.ids
  keys := (((hl.filterMap _).append_right _).nodup_iff).mp h.keys
  alone := (hl.filterMap _).nodup_iff.mp h.alone
  subset := h.subset
  settled user hin :=
    (h.settled user fun hmem => hin ((hl.filterMap _).mem_iff.mp hmem)).goTo l
  deleting user passkey hq := (h.deleting user passkey (hl.mem_iff.mpr hq)).goTo l
  inserting user passkey hq := (h.inserting user passkey (hl.mem_iff.mpr hq)).goTo l

section Statements

variable {q : KeyStage User Passkey} {rest : List (KeyStage User Passkey)} {user : User}
  {passkey : Passkey}

/-- A request that replaces nothing, neither before nor after. -/
theorem Inv.goTo (h : s.Inv) {t : KeyStage User Passkey} (hs : s.requests = q :: rest)
    (hq : q.replaces = none) (hnext : t.replaces = none)
    (hkeys : ((t :: rest).filterMap KeyStage.pending ++
      s.inserted.map PasskeyRow.passkey).Nodup) : Inv { s with requests := t :: rest } := by
  have hreplaces : (t :: rest).filterMap KeyStage.replaces =
      s.requests.filterMap KeyStage.replaces := by
    rw [hs, List.filterMap_cons_none hq, List.filterMap_cons_none hnext]
  refine ⟨h.ids, hkeys, hreplaces ▸ h.alone, h.subset, fun user hin => ?_,
    fun user passkey hin => ?_, fun user passkey hin => ?_⟩
  · exact (h.settled user (hreplaces ▸ hin)).goTo _
  · rcases List.mem_cons.mp hin with rfl | hin
    · cases hnext
    · exact (h.deleting user passkey (hs ▸ List.mem_cons_of_mem _ hin)).goTo _
  · rcases List.mem_cons.mp hin with rfl | hin
    · cases hnext
    · exact (h.inserting user passkey (hs ▸ List.mem_cons_of_mem _ hin)).goTo _

omit [DecidableEq User] in
theorem ne_of_replaces (halone : ((q :: rest).filterMap KeyStage.replaces).Nodup)
    (hq : q.replaces = some user) {q' : KeyStage User Passkey} (hq' : q' ∈ rest) {user' : User}
    (huser : q'.replaces = some user') : user' ≠ user := by
  rw [List.filterMap_cons_some hq, List.nodup_cons] at halone
  rintro rfl
  exact halone.1 (List.mem_filterMap.mpr ⟨q', hq', huser⟩)

/-- The rows of a user who has no other request between copy and insert are copied. -/
theorem Inv.copy_eq (h : s.Inv) (huser : user ∉ s.requests.filterMap KeyStage.replaces) :
    s.copy user = { s with dropped := s.dropped ++ (s.newest user).toList } := by
  have hsettled := h.settled user huser
  rw [copy, hsettled.active]
  refine if_neg fun hany => ?_
  obtain ⟨row, hrow, hd⟩ := List.any_eq_true.mp hany
  obtain ⟨d, hd, heq⟩ := List.any_eq_true.mp hd
  rw [Option.mem_toList] at hrow
  obtain ⟨hin, hof⟩ := mem_newest hrow
  have hdrow := h.eq_of_id hin (h.subset d hd) (of_decide_eq_true heq)
  rw [hdrow] at hd
  exact (hsettled.dropped row hin hof).mp hd hrow

omit [DecidableEq User] in
theorem copy_requests [DecidableEq User] (user : User) (l : List (KeyStage User Passkey)) :
    Passkeys.copy { s with requests := l } user = { s.copy user with requests := l } := by
  simp only [Passkeys.copy]
  split <;> rfl

omit [DecidableEq User] in
theorem requests_copy [DecidableEq User] (user : User) : (s.copy user).requests = s.requests := by
  simp only [Passkeys.copy]
  split <;> rfl

theorem Inv.copy (h : s.Inv) (hs : s.requests = .copying user passkey :: rest)
    (huser : user ∉ s.requests.filterMap KeyStage.replaces) :
    Inv { s.copy user with requests := .deleting user passkey :: rest } := by
  have hsettled := h.settled user huser
  have hkeys := h.keys
  rw [hs] at hkeys huser
  have hrest : user ∉ rest.filterMap KeyStage.replaces := huser
  rw [h.copy_eq (hs ▸ huser)]
  have hother : ∀ row : PasskeyRow User Passkey, row.user ≠ user →
      (row ∈ s.dropped ++ (s.newest user).toList ↔ row ∈ s.dropped) := by
    intro row hne
    rw [List.mem_append, Option.mem_toList]
    exact or_iff_left fun hnew => hne (mem_newest hnew).2
  refine ⟨h.ids, hkeys, ?_, fun d hd => ?_, fun user' hin => ?_, fun user' passkey' hin => ?_,
    fun user' passkey' hin => ?_⟩
  · have halone := h.alone
    rw [hs] at halone
    exact List.nodup_cons.mpr ⟨hrest, halone⟩
  · rcases List.mem_append.mp hd with hd | hd
    · exact h.subset d hd
    · exact (mem_newest (Option.mem_toList.mp hd)).1
  · have hne : user' ≠ user := fun heq => hin (heq ▸ List.mem_cons_self ..)
    have hold := h.settled user' fun hmem => hin (List.mem_cons_of_mem _ (by rwa [hs] at hmem))
    refine ⟨hold.active, fun row hrow hof => ?_⟩
    rw [hother row (hof ▸ hne)]
    exact hold.dropped row hrow hof
  · rcases List.mem_cons.mp hin with heq | hin
    · cases heq
      refine ⟨hsettled.active, fun row hrow hof => List.mem_append.mpr ?_⟩
      by_cases hnew : row ∈ s.newest user
      · exact .inr (Option.mem_toList.mpr hnew)
      · exact .inl ((hsettled.dropped row hrow hof).mpr hnew)
    · have hold := h.deleting user' passkey' (hs ▸ List.mem_cons_of_mem _ hin)
      exact ⟨hold.active, fun row hrow hof =>
        List.mem_append_left _ (hold.dropped row hrow hof)⟩
  · have hin' : .inserting user' passkey' ∈ s.requests := by
      rw [hs]
      exact List.mem_cons_of_mem _ ((List.mem_cons.mp hin).resolve_left nofun)
    have hold := h.inserting user' passkey' hin'
    exact ⟨hold.active, fun row hrow hof => List.mem_append_left _ (hold.dropped row hrow hof)⟩

omit [DecidableEq User] in
theorem filter_other [DecidableEq User] {user user' : User} (hne : user' ≠ user)
    (rows : List (PasskeyRow User Passkey)) :
    ((rows.filter fun row => row.user ≠ user).filter fun row => row.user = user') =
      rows.filter fun row => row.user = user' := by
  rw [List.filter_filter]
  refine List.filter_congr fun row _ => ?_
  by_cases heq : row.user = user'
  · rw [heq]
    simp [hne]
  · simp [heq]

theorem Inv.delete (h : s.Inv) (hs : s.requests = .deleting user passkey :: rest) :
    Inv { s.delete user with requests := .inserting user passkey :: rest } := by
  have hkeys := h.keys
  have halone := h.alone
  rw [hs] at hkeys halone
  have hcopied := h.deleting user passkey (hs ▸ List.mem_cons_self ..)
  refine ⟨h.ids, hkeys, halone, h.subset, fun user' hin => ?_, fun user' passkey' hin => ?_,
    fun user' passkey' hin => ?_⟩
  · have hne : user' ≠ user := fun heq => hin (heq ▸ List.mem_cons_self ..)
    have hold := h.settled user' (by rwa [hs])
    exact ⟨(filter_other hne _).trans hold.active, hold.dropped⟩
  · have hmem := (List.mem_cons.mp hin).resolve_left nofun
    have hold := h.deleting user' passkey' (hs ▸ List.mem_cons_of_mem _ hmem)
    exact ⟨(filter_other (ne_of_replaces halone rfl hmem rfl) _).trans hold.active, hold.dropped⟩
  · rcases List.mem_cons.mp hin with heq | hmem
    · cases heq
      refine ⟨List.filter_eq_nil_iff.mpr fun row hrow => ?_, hcopied.dropped⟩
      simpa using (List.mem_filter.mp hrow).2
    · have hold := h.inserting user' passkey' (hs ▸ List.mem_cons_of_mem _ hmem)
      exact ⟨(filter_other (ne_of_replaces halone rfl hmem rfl) _).trans hold.active,
        hold.dropped⟩

theorem newest_insert (passkey : Passkey) {user user' : User} :
    (s.insert passkey user).newest user' =
      if user' = user then some ⟨s.nextId, passkey, user⟩ else s.newest user' := by
  rw [Passkeys.newest, Passkeys.insert, List.filter_append]
  split
  · next heq =>
    subst heq
    have hnew : [(⟨s.nextId, passkey, user'⟩ : PasskeyRow User Passkey)].filter
        (fun row => row.user = user') = [⟨s.nextId, passkey, user'⟩] :=
      List.filter_cons_of_pos (decide_eq_true rfl)
    rw [hnew]
    exact List.getLast?_concat
  · next hne =>
    rw [List.filter_cons_of_neg (by simpa using Ne.symm hne), List.filter_nil, List.append_nil]
    rfl

theorem filter_insert (passkey : Passkey) {user user' : User} (hne : user' ≠ user) :
    ((s.insert passkey user).active.filter fun row => row.user = user') =
      s.active.filter fun row => row.user = user' := by
  rw [Passkeys.insert, List.filter_append,
    List.filter_cons_of_neg (by simpa using Ne.symm hne), List.filter_nil, List.append_nil]

omit [DecidableEq User] in
theorem mem_inserted (passkey : Passkey) {user user' : User} (hne : user' ≠ user)
    {row : PasskeyRow User Passkey} (hrow : row ∈ (s.insert passkey user).inserted)
    (hof : row.user = user') : row ∈ s.inserted := by
  rcases List.mem_append.mp hrow with hrow | hrow
  · exact hrow
  · rw [List.mem_singleton.mp hrow] at hof
    exact absurd hof.symm hne

theorem Inv.id_lt (h : s.Inv) {row : PasskeyRow User Passkey} (hrow : row ∈ s.inserted) :
    row.id < s.nextId := by
  have hid : row.id ∈ s.inserted.map PasskeyRow.id := List.mem_map_of_mem hrow
  rwa [h.ids, List.mem_range] at hid

theorem Inv.insert (h : s.Inv) (hs : s.requests = .inserting user passkey :: rest) :
    Inv { s.insert passkey user with requests := .ended :: rest } := by
  have hkeys := h.keys
  have halone := h.alone
  rw [hs] at hkeys halone
  have hcopied := h.inserting user passkey (hs ▸ List.mem_cons_self ..)
  refine ⟨?_, ?_, (List.nodup_cons.mp halone).2, fun d hd => List.mem_append_left _ (h.subset d hd),
    fun user' hin => ?_, fun user' passkey' hin => ?_, fun user' passkey' hin => ?_⟩
  · calc (s.insert passkey user).inserted.map PasskeyRow.id
        = s.inserted.map PasskeyRow.id ++ [s.nextId] := List.map_append
      _ = List.range (s.nextId + 1) := by rw [h.ids, List.range_succ]
  · have hmap : (s.insert passkey user).inserted.map PasskeyRow.passkey =
        s.inserted.map PasskeyRow.passkey ++ [passkey] := List.map_append
    refine (List.Perm.nodup_iff ?_).mpr hkeys
    change (rest.filterMap KeyStage.pending ++
      (s.insert passkey user).inserted.map PasskeyRow.passkey).Perm
        (passkey :: rest.filterMap KeyStage.pending ++ s.inserted.map PasskeyRow.passkey)
    rw [hmap, ← List.append_assoc]
    exact List.perm_append_singleton _ _
  · by_cases heq : user' = user
    · subst heq
      refine Settled.goTo ⟨?_, fun row hrow hof => ?_⟩ _
      · rw [newest_insert, if_pos rfl, Passkeys.insert, List.filter_append, hcopied.active]
        have hnew : [(⟨s.nextId, passkey, user'⟩ : PasskeyRow User Passkey)].filter
            (fun row => row.user = user') = [⟨s.nextId, passkey, user'⟩] :=
          List.filter_cons_of_pos (decide_eq_true rfl)
        exact hnew
      · rw [newest_insert, if_pos rfl, Option.mem_some_iff]
        rcases List.mem_append.mp hrow with hrow | hrow
        · refine iff_of_true (hcopied.dropped row hrow hof) fun hnew => ?_
          exact absurd (h.id_lt hrow) (by rw [← hnew]; exact Nat.lt_irrefl _)
        · rw [List.mem_singleton.mp hrow]
          refine iff_of_false (fun hd => ?_) (not_not_intro rfl)
          exact absurd (h.id_lt (h.subset _ hd)) (Nat.lt_irrefl _)
    · have hold := h.settled user' (by
        rw [hs]
        exact fun hmem => hin ((List.mem_cons.mp hmem).resolve_left heq))
      refine Settled.goTo ⟨?_, fun row hrow hof => ?_⟩ _
      · rw [filter_insert passkey heq, newest_insert, if_neg heq, hold.active]
      · rw [newest_insert, if_neg heq]
        exact hold.dropped row (mem_inserted passkey heq hrow hof) hof
  · have hmem := (List.mem_cons.mp hin).resolve_left nofun
    have hne := ne_of_replaces halone rfl hmem rfl
    have hold := h.deleting user' passkey' (hs ▸ List.mem_cons_of_mem _ hmem)
    have hnewest : (s.insert passkey user).newest user' = s.newest user' := by
      rw [newest_insert, if_neg hne]
    refine Copied.goTo ⟨?_, fun row hrow hof => ?_⟩ _
    · exact (filter_insert passkey hne).trans (hold.active.trans (by rw [← hnewest]; rfl))
    · exact hold.dropped row (mem_inserted passkey hne hrow hof) hof
  · have hmem := (List.mem_cons.mp hin).resolve_left nofun
    have hne := ne_of_replaces halone rfl hmem rfl
    have hold := h.inserting user' passkey' (hs ▸ List.mem_cons_of_mem _ hmem)
    refine Copied.goTo ⟨?_, fun row hrow hof => ?_⟩ _
    · exact (filter_insert passkey hne).trans hold.active
    · exact hold.dropped row (mem_inserted passkey hne hrow hof) hof

end Statements

/-! ## Runs -/

variable [DecidableEq Passkey]

omit [DecidableEq Passkey] in
theorem inv_init : (init : Passkeys User Passkey).Inv where
  ids := rfl
  keys := List.nodup_nil
  alone := List.nodup_nil
  subset _ hd := absurd hd List.not_mem_nil
  settled _ _ := ⟨rfl, fun _ hrow => absurd hrow List.not_mem_nil⟩
  deleting _ _ hq := absurd hq List.not_mem_nil
  inserting _ _ hq := absurd hq List.not_mem_nil

omit [DecidableEq Passkey] in
/-- A statement of a request that is alone between its copy and its insert. -/
theorem Inv.statement (h : s.Inv) {r : Nat} {q : KeyStage User Passkey}
    (hq : s.requests[r]? = some q)
    (halone : ∀ user ∈ q.copies, ∀ q' ∈ s.requests, user ∉ q'.replaces) :
    (s.statement r q).Inv := by
  obtain ⟨rest, hrest, hset⟩ := exists_split hq
  have hinv := h.perm hrest
  cases q with
  | copying user passkey =>
    have hcopy := hinv.copy rfl fun hin => by
      obtain ⟨q', hq', huser⟩ := List.mem_filterMap.mp hin
      exact halone user rfl q' (hrest.mem_iff.mpr hq') huser
    rw [copy_requests] at hcopy
    have hset' := hset (.deleting user passkey)
    rw [← requests_copy user] at hset'
    exact hcopy.perm (l := (s.copy user).requests.set r _) hset'.symm
  | deleting user passkey => exact Inv.perm (hinv.delete rfl) (hset _).symm
  | inserting user passkey => exact Inv.perm (hinv.insert rfl) (hset _).symm
  | checking user => exact h
  | ended => exact h

theorem Inv.step (h : s.Inv) {e : KeyEvent User Passkey} (halone : s.Alone e) :
    (s.step e).Inv := by
  cases e with
  | start user =>
    have hkeys : ((KeyStage.checking user :: s.requests).filterMap KeyStage.pending ++
        s.inserted.map PasskeyRow.passkey).Nodup := h.keys
    have hinv : Inv { s with requests := .ended :: s.requests } :=
      ⟨h.ids, h.keys, h.alone, h.subset, fun user hin => (h.settled user hin).goTo _,
        fun _ _ hq => (h.deleting _ _ ((List.mem_cons.mp hq).resolve_left nofun)).goTo _,
        fun _ _ hq => (h.inserting _ _ ((List.mem_cons.mp hq).resolve_left nofun)).goTo _⟩
    exact (hinv.goTo rfl rfl rfl hkeys).perm (List.perm_append_singleton _ _).symm
  | refuse r =>
    change Inv (match s.requests[r]? with
      | some (.checking _) => s.goTo r .ended
      | _ => s)
    split
    · next user hq =>
      obtain ⟨rest, hrest, hset⟩ := exists_split hq
      have hinv := h.perm hrest
      exact (hinv.goTo (t := .ended) rfl rfl rfl hinv.keys).perm (hset .ended).symm
    · exact h
  | test r passkey =>
    change Inv ((s.requests[r]?.map (s.test r passkey)).getD s)
    cases hq : s.requests[r]? with
    | none => exact h
    | some q =>
      cases q with
      | checking user =>
        change Inv (if _ then s else s.goTo r (.copying user passkey))
        split
        · exact h
        · obtain ⟨rest, hrest, hset⟩ := exists_split hq
          have hinv := h.perm hrest
          refine (hinv.goTo (t := .copying user passkey) rfl rfl rfl ?_).perm (hset _).symm
          refine List.nodup_cons.mpr ⟨fun hin => ?_, hinv.keys⟩
          rcases List.mem_append.mp hin with hin | hin
          · obtain ⟨q', hq', hpending⟩ := List.mem_filterMap.mp hin
            exact halone.2 q' (hrest.mem_iff.mpr (List.mem_cons_of_mem _ hq')) hpending
          · obtain ⟨row, hrow, heq⟩ := List.mem_map.mp hin
            exact halone.1 row hrow heq
      | copying | deleting | inserting | ended => exact h
  | statement r =>
    change Inv ((s.requests[r]?.map (s.statement r)).getD s)
    cases hq : s.requests[r]? with
    | none => exact h
    | some q => exact h.statement hq (halone q hq)

/-- **A user has one valid passkey** in every state of a run in which no request is in progress,
when every generated passkey is new and no request copies the rows of a user between the copy
and the insert of another one. -/
theorem passkeys_valid (events : List (KeyEvent User Passkey))
    (h : Along step Alone init events) (k : Nat) (hidle : (run step init (events.take k)).Idle) :
    (run step init (events.take k)).Valid :=
  (along_run Inv (fun _ _ hinv halone => Inv.step hinv halone) _ _ inv_init
    (along_take h k)).valid hidle

instance (s : Passkeys User Passkey) : Decidable s.Idle :=
  inferInstanceAs (Decidable (∀ q ∈ s.requests, q = .ended))

/-- Two activations of one user, one after the other. -/
theorem passkeys_valid_twice :
    Valid (run step (init : Passkeys String Nat)
      ([.start "a", .test 0 5, .statement 0, .statement 0, .statement 0,
        .start "a", .test 1 6, .statement 1, .statement 1, .statement 1].take 10)) :=
  passkeys_valid _ (by decide) 10 (by decide)

/-- Two activations of one user whose statements take turns: both rows stay active. -/
theorem both_active :
    ∃ events : List (KeyEvent String Nat), (run step init events).Idle ∧
      ¬ (run step init events).Valid := by
  refine ⟨[.start "a", .start "a", .test 0 5, .test 1 6, .statement 0, .statement 1,
    .statement 0, .statement 1, .statement 0, .statement 1], by decide, fun h => ?_⟩
  exact absurd (h.one "a") (by decide)

end Keeps

end Passkeys

end DWindow.Php
