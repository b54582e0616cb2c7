import DWindow.NetBar.Seats

/-!
# Seats and bans

The calls of the functions that use the two tables, in any order and with any reading of the
32-bit counter.

An empty seat has tick 0, and `login_ip` looks only at ticks: in the two minutes after the
counter passes 0 it refuses an empty seat (`login_exact_iff`).  `ban_ip` records nothing when
the table has no free entry (`bans_hold_iff`).
-/

namespace DWindow.NetBar

open Runs

/-! ## Calls -/

/-- A call of one of the functions that use the tables. -/
inductive Call where
  | loginIp (ip tick : UInt32)
  | logoutIp (ip : UInt32) (clock : Nat → UInt32)
  | clearTimeoutIp (clock : Nat → UInt32)
  | banIp (ip : UInt32)
  | unbanIp (ip : UInt32)

namespace Server

def call (s : Server) : Call → Server
  | .loginIp ip tick => (s.loginIp ip tick).1
  | .logoutIp ip clock => s.logoutIp ip clock
  | .clearTimeoutIp clock => s.clearTimeoutIp clock
  | .banIp ip => s.banIp ip
  | .unbanIp ip => s.unbanIp ip

/-- What happens to the server is a call, or nothing happens to the tables. -/
theorem step_eq_call (crypt : List UInt8 → UInt8 → List UInt8) (s : Server) (op : Op) :
    step crypt s op = s ∨ ∃ c, step crypt s op = s.call c := by
  cases op with
  | request text ip clock random =>
    obtain ⟨-, -, -, h⟩ | ⟨-, -, h⟩ | ⟨h, -⟩ := myHandleReq_cases crypt s text ip clock random
    · exact Or.inr ⟨.loginIp ip (clock 0), h⟩
    · refine Or.inr ⟨.logoutIp ip clock, ?_⟩
      rw [step, h]
      rfl
    · exact Or.inl h
  | banIp ip => exact Or.inr ⟨.banIp ip, rfl⟩
  | unbanIp ip => exact Or.inr ⟨.unbanIp ip, rfl⟩
  | clearTimeoutIp clock => exact Or.inr ⟨.clearTimeoutIp clock, rfl⟩

/-! ## Seats -/

/-- No address but 0 has two entries. -/
def NoneTwice (s : Server) : Prop := ∀ (i j : Nat) (u v : UserInfo), s.activeUsers[i]? = some u →
  s.activeUsers[j]? = some v → u.ip ≠ 0 → u.ip = v.ip → i = j

/-- None has two, and what lies behind the seats is free. -/
structure Tidy (s : Server) : Prop where
  none_twice : s.NoneTwice
  free_behind : ∀ (i : Nat) (u : UserInfo), s.maxUser ≤ i → s.activeUsers[i]? = some u → u = .free

theorem tidy_initial (maxUser : Nat) (h : maxUser ≤ MAX_USER_SLOT) :
    (initial maxUser h).Tidy := by
  have hfree : ∀ (i : Nat) (u : UserInfo),
      (initial maxUser h).activeUsers[i]? = some u → u = .free := by
    intro i u hu
    exact List.eq_of_mem_replicate (List.mem_of_getElem? hu)
  constructor
  · intro i j u v hu hv hip
    rw [hfree i u hu] at hip
    exact absurd rfl hip
  · intro i u _ hu
    exact hfree i u hu

theorem getElem?_mapSeats (s : Server) (f : Nat → UserInfo → UserInfo) (i : Nat) :
    (s.mapSeats f).activeUsers[i]? =
      if i < s.maxUser then s.activeUsers[i]?.map (f i) else s.activeUsers[i]? := by
  have hlength : (s.seats.mapIdx f).length = s.maxUser := by
    rw [List.length_mapIdx, length_seats]
  have happ : (s.mapSeats f).activeUsers = s.seats.mapIdx f ++ s.activeUsers.drop s.maxUser := rfl
  rw [happ]
  split
  · rename_i hi
    rw [List.getElem?_append_left (by omega), List.getElem?_mapIdx, seats,
      List.getElem?_take_of_lt hi]
  · rename_i hi
    rw [List.getElem?_append_right (by omega), List.getElem?_drop, hlength]
    congr 1
    omega

theorem Tidy.mapSeats {s : Server} (h : s.Tidy) {f : Nat → UserInfo → UserInfo}
    (hf : ∀ i u, f i u = u ∨ f i u = .free) : (s.mapSeats f).Tidy := by
  have hback : ∀ (i : Nat) (u : UserInfo), (s.mapSeats f).activeUsers[i]? = some u →
      s.activeUsers[i]? = some u ∨ u = .free := by
    intro i u hu
    rw [getElem?_mapSeats] at hu
    split at hu
    · obtain ⟨v, hv, rfl⟩ := Option.map_eq_some_iff.mp hu
      obtain hkeep | hfree := hf i v
      · rw [hkeep]
        exact Or.inl hv
      · exact Or.inr hfree
    · exact Or.inl hu
  constructor
  · intro i j u v hu hv hip heq
    obtain hu | rfl := hback i u hu
    · obtain hv | rfl := hback j v hv
      · exact h.none_twice i j u v hu hv hip heq
      · exact absurd heq hip
    · exact absurd rfl hip
  · intro i u hi hu
    obtain hu | rfl := hback i u hu
    · exact h.free_behind i u hi hu
    · rfl

/-- A seat that is written for its own address, or for one that has none. -/
theorem Tidy.setUser {s : Server} (h : s.Tidy) {i : Nat} {u v : UserInfo}
    (hi : s.seats[i]? = some u) (hv : u.ip = v.ip ∨ ¬ s.Seated v.ip) : (s.setUser i v).Tidy := by
  have hlt : i < s.maxUser := by
    rw [← length_seats]
    exact (List.getElem?_eq_some_iff.mp hi).1
  have hu : s.activeUsers[i]? = some u := by
    rw [← hi, seats, List.getElem?_take_of_lt hlt]
  have hset : ∀ (j : Nat) (w : UserInfo), (s.setUser i v).activeUsers[j]? = some w →
      j = i ∧ w = v ∨ j ≠ i ∧ s.activeUsers[j]? = some w := by
    intro j w hw
    by_cases hij : i = j
    · subst hij
      rw [Server.setUser, List.getElem?_set_self (List.getElem?_eq_some_iff.mp hu).1] at hw
      exact Or.inl ⟨rfl, (Option.some.inj hw).symm⟩
    · rw [Server.setUser, List.getElem?_set_ne hij] at hw
      exact Or.inr ⟨Ne.symm hij, hw⟩
  -- another entry with the address of the new one
  have hother : ∀ (j : Nat) (w : UserInfo),
      s.activeUsers[j]? = some w → v.ip ≠ 0 → w.ip = v.ip → i = j := by
    intro j w hw hip heq
    obtain hown | hnone := hv
    · exact h.none_twice i j u w hu hw (hown ▸ hip) (hown.trans heq.symm)
    · refine absurd ⟨w, ?_, heq⟩ hnone
      by_cases hj : j < s.maxUser
      · refine List.mem_of_getElem? (i := j) ?_
        rw [seats, List.getElem?_take_of_lt hj, hw]
      · rw [h.free_behind j w (Nat.not_lt.mp hj) hw] at heq
        exact absurd heq.symm hip
  constructor
  · intro j k w x hw hx hip heq
    obtain ⟨rfl, rfl⟩ | ⟨-, hold⟩ := hset j w hw
    · obtain ⟨rfl, -⟩ | ⟨-, hx⟩ := hset k x hx
      · rfl
      · exact hother k x hx hip heq.symm
    · obtain ⟨rfl, rfl⟩ | ⟨-, hx⟩ := hset k x hx
      · exact (hother j w hold (heq ▸ hip) heq).symm
      · exact h.none_twice j k w x hold hx hip heq
  · intro j w hj hw
    obtain ⟨rfl, -⟩ | ⟨-, hw⟩ := hset j w hw
    · exact absurd hlt (Nat.not_lt.mpr hj)
    · exact h.free_behind j w hj hw

/-- A login writes the address's own seat, or another one when it has none. -/
theorem loginIp_takes (s : Server) (ip tick : UInt32) :
    (s.loginIp ip tick).1 = s ∨ ∃ i u, s.seats[i]? = some u ∧ (u.ip = ip ∨ ¬ s.Seated ip) ∧
      (s.loginIp ip tick).1 = s.setUser i ⟨tick, ip⟩ := by
  by_cases hban : s.isIpBanned ip = true
  · exact Or.inl (by rw [loginIp, if_pos hban])
  · rw [Bool.not_eq_true] at hban
    by_cases hseated : s.Seated ip
    · obtain ⟨v, hv, hip⟩ := hseated
      obtain ⟨i, hi⟩ : ∃ i, s.seats.findIdx? (fun u => u.ip == ip) = some i := by
        rw [← Option.isSome_iff_exists, List.findIdx?_isSome, List.any_eq_true]
        exact ⟨v, hv, by simp [hip]⟩
      obtain ⟨hlt, hown, -⟩ := List.findIdx?_eq_some_iff_getElem.mp hi
      refine Or.inr ⟨i, s.seats[i], List.getElem?_eq_getElem hlt, Or.inl (by simpa using hown), ?_⟩
      rw [loginIp, hban, if_neg (by decide), hi]
    · obtain ⟨i, u, hi, -, h⟩ | ⟨-, h⟩ := s.loginIp_cases tick hban
      · exact Or.inr ⟨i, u, hi, Or.inr hseated, by rw [h]⟩
      · exact Or.inl (by rw [h])

/-- **A call keeps the table tidy.** -/
theorem Tidy.call {s : Server} (h : s.Tidy) (c : Call) : (s.call c).Tidy := by
  cases c with
  | loginIp ip tick =>
    rw [Server.call]
    obtain heq | ⟨i, u, hi, hip, heq⟩ := s.loginIp_takes ip tick
    · rwa [heq]
    · rw [heq]
      exact h.setUser hi hip
  | logoutIp ip clock =>
    refine Tidy.mapSeats (Tidy.mapSeats h fun i u => ?_) fun i u => ?_
    · split
      · exact Or.inr rfl
      · exact Or.inl rfl
    · split
      · exact Or.inr rfl
      · exact Or.inl rfl
  | clearTimeoutIp clock =>
    refine Tidy.mapSeats h fun i u => ?_
    split
    · exact Or.inr rfl
    · exact Or.inl rfl
  | banIp ip =>
    rw [Server.call, Server.banIp]
    split
    · exact ⟨h.none_twice, h.free_behind⟩
    · exact h
  | unbanIp ip => exact ⟨h.none_twice, h.free_behind⟩

/-- **The table of every run is tidy.** -/
theorem tidy_run (maxUser : Nat) (h : maxUser ≤ MAX_USER_SLOT) (calls : List Call) :
    (run Server.call (initial maxUser h) calls).Tidy :=
  run_invariant Tidy (fun _ c hs => hs.call c) calls _ (tidy_initial maxUser h)

def HasEmpty (s : Server) : Prop := ∃ u ∈ s.seats, u.ip = 0

instance (s : Server) : Decidable s.HasEmpty :=
  inferInstanceAs (Decidable (∃ u ∈ s.seats, u.ip = 0))

/-- A login of an address that is not banned succeeds exactly when there is a seat for it. -/
def LoginExact (s : Server) (ip tick : UInt32) : Prop :=
  s.isIpBanned ip = false → ((s.loginIp ip tick).2 = S_OK ↔
    s.Seated ip ∨ s.HasEmpty ∨ ∃ u ∈ s.seats, u.timedOut tick = true)

theorem loginIp_ok_iff {s : Server} {ip tick : UInt32} (hban : s.isIpBanned ip = false) :
    (s.loginIp ip tick).2 = S_OK ↔ s.HasRoom ip tick := by
  obtain ⟨i, u, hi, hu, h⟩ | ⟨hnone, h⟩ := s.loginIp_cases tick hban
  · exact iff_of_true (by rw [h]) ⟨u, List.mem_of_getElem? hi, hu⟩
  · refine iff_of_false ?_ hnone
    rw [h]
    exact (by decide : ERROR_NO_MORE_USER_HANDLES ≠ S_OK)

theorem hasRoom_iff (s : Server) (ip tick : UInt32) :
    s.HasRoom ip tick ↔ s.Seated ip ∨ ∃ u ∈ s.seats, u.timedOut tick = true := by
  simp only [HasRoom, Seated, and_or_left, exists_or]

end Server

/-- **No free seat is refused**, and no address gets two, exactly when an empty seat is there
only for an address that has a seat or while some tick lies more than two minutes back. -/
theorem login_exact_iff (maxUser : Fin (MAX_USER_SLOT + 1)) (calls : List Call)
    (ip tick : UInt32) :
    let s := run Server.call (Server.initial maxUser (Nat.le_of_lt_succ maxUser.isLt)) calls
    (s.LoginExact ip tick ∧ s.NoneTwice ∧ (s.loginIp ip tick).1.NoneTwice) ↔
      (s.isIpBanned ip = false → s.HasEmpty → s.HasRoom ip tick) := by
  intro s
  have htidy : s.Tidy := Server.tidy_run _ _ calls
  have hnext : (s.loginIp ip tick).1.Tidy := htidy.call (.loginIp ip tick)
  rw [and_iff_left ⟨htidy.none_twice, hnext.none_twice⟩]
  constructor
  · intro h hban hempty
    exact (Server.loginIp_ok_iff hban).mp ((h hban).mpr (Or.inr (Or.inl hempty)))
  · intro h hban
    rw [Server.loginIp_ok_iff hban]
    constructor
    · intro hroom
      obtain hseated | htime := (s.hasRoom_iff ip tick).mp hroom
      · exact Or.inl hseated
      · exact Or.inr (Or.inr htime)
    · rintro (hseated | hempty | htime)
      · exact (s.hasRoom_iff ip tick).mpr (Or.inl hseated)
      · exact h hban hempty
      · exact (s.hasRoom_iff ip tick).mpr (Or.inr htime)

/-- **A minute after the start** the only seat is empty, and nobody gets it. -/
theorem empty_seat_refused :
    ¬ (run Server.call (Server.initial 1 (by decide)) []).LoginExact 0x0100007F 60000 := by
  intro h
  have hok := (h (by decide +kernel)).mpr (Or.inr (Or.inl ⟨.free, by decide +kernel, rfl⟩))
  exact absurd hok (by decide +kernel)

/-! ## Bans -/

namespace Server

theorem isIpBanned_iff (s : Server) (ip : UInt32) :
    s.isIpBanned ip = true ↔ ip ∈ s.bannedUsers := by
  rw [isIpBanned, List.any_eq_true]
  constructor
  · rintro ⟨b, hb, heq⟩
    rwa [← beq_iff_eq.mp heq]
  · intro h
    exact ⟨ip, h, beq_self_eq_true ip⟩

/-- A login fails for a banned address and for no other one. -/
theorem loginIp_failed_iff (s : Server) (ip tick : UInt32) :
    succeeded (s.loginIp ip tick).2 = false ↔ ip ∈ s.bannedUsers := by
  rw [← isIpBanned_iff]
  by_cases hban : s.isIpBanned ip = true
  · refine iff_of_true ?_ hban
    rw [loginIp, if_pos hban]
    rfl
  · refine iff_of_false ?_ hban
    rw [Bool.not_eq_true] at hban
    obtain ⟨i, u, -, -, h⟩ | ⟨-, h⟩ := s.loginIp_cases tick hban
    · rw [h]
      exact (by decide : succeeded S_OK ≠ false)
    · rw [h]
      exact (by decide : succeeded ERROR_NO_MORE_USER_HANDLES ≠ false)

/-- **What a ban does**: it takes a free entry, if there is one. -/
theorem banIp_cases (s : Server) (ip : UInt32) :
    (∃ i, s.bannedUsers[i]? = some 0 ∧ (s.banIp ip).bannedUsers = s.bannedUsers.set i ip) ∨
      0 ∉ s.bannedUsers ∧ s.banIp ip = s := by
  rw [banIp]
  split
  · rename_i i hi
    obtain ⟨hlt, hzero, -⟩ := List.findIdx?_eq_some_iff_getElem.mp hi
    refine Or.inl ⟨i, ?_, rfl⟩
    rw [List.getElem?_eq_getElem hlt, beq_iff_eq.mp hzero]
  · rename_i hnone
    refine Or.inr ⟨fun hmem => ?_, rfl⟩
    simpa using List.findIdx?_eq_none_iff.mp hnone 0 hmem

theorem mem_banIp_self (s : Server) (ip : UInt32) :
    ip ∈ (s.banIp ip).bannedUsers ↔ ip ∈ s.bannedUsers ∨ 0 ∈ s.bannedUsers := by
  obtain ⟨i, hi, h⟩ | ⟨hfull, h⟩ := s.banIp_cases ip
  · rw [h]
    exact iff_of_true (List.mem_set (List.getElem?_eq_some_iff.mp hi).1 ip)
      (Or.inr (List.mem_of_getElem? hi))
  · rw [h, or_iff_left hfull]

theorem mem_banIp_of_ne (s : Server) {ip other : UInt32} (h0 : other ≠ 0) (hne : other ≠ ip) :
    other ∈ (s.banIp ip).bannedUsers ↔ other ∈ s.bannedUsers := by
  obtain ⟨i, hi, h⟩ | ⟨-, h⟩ := s.banIp_cases ip
  · rw [h]
    constructor
    · intro hmem
      exact (List.mem_or_eq_of_mem_set hmem).resolve_right hne
    · intro hmem
      obtain ⟨j, hj⟩ := List.mem_iff_getElem?.mp hmem
      have hij : i ≠ j := by
        rintro rfl
        exact h0 (Option.some.inj (hj.symm.trans hi))
      refine List.mem_of_getElem? (i := j) ?_
      rw [List.getElem?_set_ne hij, hj]
  · rw [h]

theorem mem_unbanIp_of_ne (s : Server) {ip other : UInt32} (h0 : other ≠ 0) (hne : other ≠ ip) :
    other ∈ (s.unbanIp ip).bannedUsers ↔ other ∈ s.bannedUsers := by
  rw [unbanIp, List.mem_map]
  constructor
  · rintro ⟨b, hb, heq⟩
    split at heq
    · exact absurd heq.symm h0
    · rwa [← heq]
  · intro hmem
    exact ⟨other, hmem, by simp [hne]⟩

theorem bannedUsers_loginIp (s : Server) (ip tick : UInt32) :
    (s.loginIp ip tick).1.bannedUsers = s.bannedUsers := by
  obtain h | ⟨i, u, -, -, h⟩ := s.loginIp_takes ip tick
  · rw [h]
  · rw [h]
    rfl

/-- A call that does not lift the ban of an address leaves it banned. -/
theorem mem_call {s : Server} {ip : UInt32} (h0 : ip ≠ 0) (h : ip ∈ s.bannedUsers) {c : Call}
    (hc : c ≠ .unbanIp ip) : ip ∈ (s.call c).bannedUsers := by
  cases c with
  | loginIp other tick =>
    rw [call, bannedUsers_loginIp]
    exact h
  | logoutIp other clock => exact h
  | clearTimeoutIp clock => exact h
  | banIp other =>
    by_cases heq : ip = other
    · subst heq
      exact (s.mem_banIp_self ip).mpr (Or.inl h)
    · exact (s.mem_banIp_of_ne h0 heq).mpr h
  | unbanIp other =>
    have hne : ip ≠ other := by
      rintro rfl
      exact hc rfl
    exact (s.mem_unbanIp_of_ne h0 hne).mpr h

theorem mem_run {ip : UInt32} (h0 : ip ≠ 0) : ∀ (calls : List Call) {s : Server},
    ip ∈ s.bannedUsers → .unbanIp ip ∉ calls → ip ∈ (run Server.call s calls).bannedUsers := by
  intro calls
  induction calls with
  | nil => intro s h _; exact h
  | cons c calls ih =>
    intro s h hlifted
    rw [List.mem_cons, not_or] at hlifted
    exact ih (mem_call h0 h (Ne.symm hlifted.1)) hlifted.2

end Server

/-- **A ban holds** until it is lifted: every login of the address fails. -/
def BansHold (s : Server) (calls : List Call) : Prop :=
  ∀ before ip between tick, before ++ .banIp ip :: between <+: calls → .unbanIp ip ∉ between →
    succeeded ((run Server.call s (before ++ .banIp ip :: between)).loginIp ip tick).2 = false

/-- Banning or lifting the ban of one address leaves the others as they are. -/
def OthersKept (s : Server) (calls : List Call) : Prop :=
  ∀ before c ip other, before ++ [c] <+: calls → c = .banIp ip ∨ c = .unbanIp ip →
    ip ≠ 0 → other ≠ 0 → other ≠ ip →
      (run Server.call s (before ++ [c])).isIpBanned other =
        (run Server.call s before).isIpBanned other

/-- Every ban finds the address in the table, or a free entry.  The address 0 is in the table
as long as there is one. -/
structure BansFit (s : Server) (calls : List Call) : Prop where
  room : ∀ before ip, before ++ [.banIp ip] <+: calls →
    ip ∈ (run Server.call s before).bannedUsers ∨ 0 ∈ (run Server.call s before).bannedUsers
  zero : ∀ before between, before ++ .banIp 0 :: between <+: calls → .unbanIp 0 ∉ between →
    0 ∈ (run Server.call s (before ++ .banIp 0 :: between)).bannedUsers

theorem othersKept (s : Server) (calls : List Call) : OthersKept s calls := by
  intro before c ip other _ hc _ hother hne
  rw [run_append, run_cons, run_nil, Bool.eq_iff_iff, Server.isIpBanned_iff,
    Server.isIpBanned_iff]
  obtain rfl | rfl := hc
  · exact Server.mem_banIp_of_ne _ hother hne
  · exact Server.mem_unbanIp_of_ne _ hother hne

/-- **Bans hold, and touch no other address,** exactly when every one of them finds room. -/
theorem bans_hold_iff (s : Server) (calls : List Call) :
    BansHold s calls ∧ OthersKept s calls ↔ BansFit s calls := by
  rw [and_iff_left (othersKept s calls)]
  constructor
  · intro h
    constructor
    · intro before ip hprefix
      have hban := h before ip [] 0 hprefix List.not_mem_nil
      rw [Server.loginIp_failed_iff, run_append, run_cons, run_nil] at hban
      exact (Server.mem_banIp_self _ ip).mp hban
    · intro before between hprefix hlifted
      exact (Server.loginIp_failed_iff _ 0 0).mp (h before 0 between 0 hprefix hlifted)
  · intro h before ip between tick hprefix hlifted
    rw [Server.loginIp_failed_iff]
    by_cases h0 : ip = 0
    · subst h0
      exact h.zero before between hprefix hlifted
    · have hban : ip ∈ (run Server.call s (before ++ [.banIp ip])).bannedUsers := by
        rw [run_append, run_cons, run_nil]
        rw [List.append_cons] at hprefix
        exact (Server.mem_banIp_self _ ip).mpr
          (h.room before ip ((List.prefix_append _ _).trans hprefix))
      rw [List.append_cons, run_append]
      exact Server.mem_run h0 between hban hlifted

theorem count_banIp (s : Server) {ip : UInt32} (h0 : ip ≠ 0) :
    (s.banIp ip).bannedUsers.count 0 = s.bannedUsers.count 0 - 1 := by
  obtain ⟨i, hi, h⟩ | ⟨hfull, h⟩ := s.banIp_cases ip
  · obtain ⟨hlt, hzero⟩ := List.getElem?_eq_some_iff.mp hi
    rw [h, List.count_set hlt, hzero]
    simp [h0]
  · rw [h, List.count_eq_zero.mpr hfull]

theorem count_bans (s : Server) {ip : UInt32} (h0 : ip ≠ 0) (n : Nat) :
    (run Server.call s (List.replicate n (.banIp ip))).bannedUsers.count 0 =
      s.bannedUsers.count 0 - n := by
  induction n with
  | zero => rfl
  | succ n ih =>
    rw [List.replicate_succ', run_append, run_cons, run_nil, Server.call, count_banIp _ h0, ih]
    rfl

theorem mem_bans (s : Server) {ip other : UInt32} (h0 : other ≠ 0) (hne : other ≠ ip) (n : Nat) :
    other ∈ (run Server.call s (List.replicate n (.banIp ip))).bannedUsers ↔
      other ∈ s.bannedUsers := by
  induction n with
  | zero => exact Iff.rfl
  | succ n ih =>
    rw [List.replicate_succ', run_append, run_cons, run_nil, Server.call,
      Server.mem_banIp_of_ne _ h0 hne, ih]

/-- **One address banned 2048 times**, and the ban of the next one is not recorded. -/
theorem full_table_forgets :
    ¬ (BansHold (Server.initial 1 (by decide))
        (List.replicate MAX_USER_SLOT (.banIp 0x0100007F) ++ [.banIp 0x0200A8C0]) ∧
      OthersKept (Server.initial 1 (by decide))
        (List.replicate MAX_USER_SLOT (.banIp 0x0100007F) ++ [.banIp 0x0200A8C0])) := by
  rintro ⟨h, -⟩
  have hban := h (List.replicate MAX_USER_SLOT (.banIp 0x0100007F)) 0x0200A8C0 [] 0
    (List.prefix_refl _) List.not_mem_nil
  rw [Server.loginIp_failed_iff, run_append, run_cons, run_nil, Server.call] at hban
  have htable : (Server.initial 1 (by decide)).bannedUsers = List.replicate MAX_USER_SLOT 0 := rfl
  obtain hmem | hfree := (Server.mem_banIp_self _ _).mp hban
  · rw [mem_bans _ (by decide) (by decide), htable] at hmem
    exact absurd (List.eq_of_mem_replicate hmem) (by decide)
  · rw [← List.count_pos_iff, count_bans _ (by decide), htable, List.count_replicate_self,
      Nat.sub_self] at hfree
    exact absurd hfree (lt_irrefl 0)

end DWindow.NetBar
