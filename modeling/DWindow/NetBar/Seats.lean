import DWindow.NetBar.Server
import DWindow.Lib.Runs
import Mathlib.Data.Finset.Card
import Mathlib.Data.Fintype.Basic

/-!
# Who is served

`loginIp` gives a seat to an address that has one or finds one that timed out;
when there is none it returns `ERROR_NO_MORE_USER_HANDLES`, a positive number,
which `SUCCEEDED` takes for success.  So `my_handle_req` sends the passkey on a
full table as well (`myHandleReq_full`) and never says `SERVER FULL`.

`HasSeat` is the condition that the table is not full for the request at hand.
`servedWell_iff` says that one step serves as it should exactly then, and
`served_card_le` bounds the addresses served while nobody loses a seat.
-/

namespace DWindow.NetBar

open Runs CString

namespace Server

/-- One of the first `max_user` entries is `ip`'s. -/
def Seated (s : Server) (ip : UInt32) : Prop := ∃ u ∈ s.seats, u.ip = ip

/-- An entry that a login of `ip` may take. -/
def HasRoom (s : Server) (ip tick : UInt32) : Prop :=
  ∃ u ∈ s.seats, u.ip = ip ∨ u.timedOut tick = true

instance (s : Server) (ip : UInt32) : Decidable (s.Seated ip) :=
  inferInstanceAs (Decidable (∃ u ∈ s.seats, u.ip = ip))

instance (s : Server) (ip tick : UInt32) : Decidable (s.HasRoom ip tick) :=
  inferInstanceAs (Decidable (∃ u ∈ s.seats, u.ip = ip ∨ u.timedOut tick = true))

theorem seats_setUser (s : Server) (i : Nat) (u : UserInfo) :
    (s.setUser i u).seats = s.seats.set i u := List.take_set ..

theorem length_seats (s : Server) : s.seats.length = s.maxUser := by
  have := s.maxUser_le
  rw [seats, List.length_take, s.length_activeUsers]
  omega

theorem seats_mapSeats (s : Server) (f : Nat → UserInfo → UserInfo) :
    (s.mapSeats f).seats = s.seats.mapIdx f :=
  List.take_left' (by rw [List.length_mapIdx, length_seats]; rfl)

/-- **What a login does**, banned addresses apart: it takes an entry, or leaves the
tables alone when there is none to take. -/
theorem loginIp_cases {s : Server} {ip : UInt32} (tick : UInt32) (hban : s.isIpBanned ip = false) :
    (∃ i u, s.seats[i]? = some u ∧ (u.ip = ip ∨ u.timedOut tick = true) ∧
      s.loginIp ip tick = (s.setUser i ⟨tick, ip⟩, S_OK)) ∨
    (¬ s.HasRoom ip tick ∧ s.loginIp ip tick = (s, ERROR_NO_MORE_USER_HANDLES)) := by
  rw [loginIp, hban, if_neg (by decide)]
  cases hown : s.seats.findIdx? (fun u => u.ip == ip) with
  | some i =>
    obtain ⟨hi, hu, -⟩ := List.findIdx?_eq_some_iff_getElem.mp hown
    exact Or.inl ⟨i, s.seats[i], List.getElem?_eq_getElem hi, Or.inl (by simpa using hu), rfl⟩
  | none =>
    cases hfree : s.seats.findIdx? (fun u => u.timedOut tick) with
    | some i =>
      obtain ⟨hi, hu, -⟩ := List.findIdx?_eq_some_iff_getElem.mp hfree
      exact Or.inl ⟨i, s.seats[i], List.getElem?_eq_getElem hi, Or.inr hu, rfl⟩
    | none =>
      refine Or.inr ⟨?_, rfl⟩
      rintro ⟨u, hu, hip | htime⟩
      · have := List.findIdx?_eq_none_iff.mp hown u hu
        simp [hip] at this
      · have := List.findIdx?_eq_none_iff.mp hfree u hu
        simp [htime] at this

theorem seated_setUser {s : Server} {i : Nat} {u v : UserInfo} (hi : s.seats[i]? = some u) :
    (s.setUser i v).Seated v.ip := by
  obtain ⟨hlt, -⟩ := List.getElem?_eq_some_iff.mp hi
  refine ⟨v, ?_, rfl⟩
  rw [seats_setUser]
  exact List.mem_set hlt v

end Server

/-! ## One request -/

variable {crypt : List UInt8 → UInt8 → List UInt8}

def IsKeyRequest (text : List UInt8) : Prop :=
  ∃ args, arguments text = some args ∧ args.length = 64

/-- The table has room for the request, if it is one for the passkey that gets as
far as a login. -/
def HasSeat (s : Server) : Op → Prop
  | .request text ip clock _ => isLocalIp ip = true → IsKeyRequest text →
      s.isIpBanned ip = false → s.HasRoom ip (clock 0)
  | _ => True

/-- The passkey goes to a seated address that is not banned, and an address that
asks for it, is not banned and is not seated is told that the server is full. -/
def ServedWell (crypt : List UInt8 → UInt8 → List UInt8) (s : Server) : Op → Prop
  | .request text ip clock random =>
    let r := s.myHandleReq crypt text ip clock random
    (∀ c, r.2 = .reply (.passkey c) → r.1.isIpBanned ip = false ∧ r.1.Seated ip) ∧
      (isLocalIp ip = true → IsKeyRequest text → r.1.isIpBanned ip = false →
        ¬ r.1.Seated ip → r.2 = .reply .serverFull)
  | _ => True

/-- **The server is never full.**  Whether or not there was a seat, the answer is
the passkey: what `loginIp` returns on a full table is a success, too. -/
theorem myHandleReq_key (crypt : List UInt8 → UInt8 → List UInt8) {s : Server}
    {text args : List UInt8} {ip : UInt32} (clock : Nat → UInt32) (random : UInt8)
    (hlocal : isLocalIp ip = true)
    (hargs : arguments text = some args) (hlen : args.length = 64)
    (hban : s.isIpBanned ip = false) :
    s.myHandleReq crypt text ip clock random =
      ((s.loginIp ip (clock 0)).1, .reply (.passkey (crypt args random))) := by
  have hhr : succeeded (s.loginIp ip (clock 0)).2 = true := by
    rcases s.loginIp_cases (clock 0) hban with ⟨i, u, -, -, h⟩ | ⟨-, h⟩ <;> rw [h] <;> rfl
  rw [Server.myHandleReq, hlocal, hargs]
  simp only [Bool.not_true, Bool.false_eq_true, if_false, hlen, if_true, hban]
  exact if_pos hhr

/-- **What a request does**: it logs in and is sent the passkey, it logs out, or it
leaves the tables alone. -/
theorem myHandleReq_cases (crypt : List UInt8 → UInt8 → List UInt8) (s : Server)
    (text : List UInt8) (ip : UInt32) (clock : Nat → UInt32) (random : UInt8) :
    (isLocalIp ip = true ∧ IsKeyRequest text ∧ s.isIpBanned ip = false ∧
      (s.myHandleReq crypt text ip clock random).1 = (s.loginIp ip (clock 0)).1) ∨
    (isLocalIp ip = true ∧ arguments text = some (ascii ['L', 'O', 'G', 'O', 'U', 'T']) ∧
      s.myHandleReq crypt text ip clock random = (s.logoutIp ip clock, .reply .ok)) ∨
    ((s.myHandleReq crypt text ip clock random).1 = s ∧
      (∀ c, (s.myHandleReq crypt text ip clock random).2 ≠ .reply (.passkey c)) ∧
      (isLocalIp ip = true → IsKeyRequest text → s.isIpBanned ip = true)) := by
  by_cases hlocal : isLocalIp ip = true
  · cases hargs : arguments text with
    | none =>
      refine Or.inr (Or.inr ?_)
      simp [Server.myHandleReq, hlocal, hargs, IsKeyRequest]
    | some args =>
      by_cases hlen : args.length = 64
      · cases hban : s.isIpBanned ip with
        | false =>
          rw [myHandleReq_key crypt clock random hlocal hargs hlen hban]
          exact Or.inl ⟨hlocal, ⟨args, hargs, hlen⟩, rfl, rfl⟩
        | true =>
          refine Or.inr (Or.inr ?_)
          simp [Server.myHandleReq, hlocal, hargs, hlen, hban]
      · by_cases hout : args = ascii ['L', 'O', 'G', 'O', 'U', 'T']
        · subst hout
          refine Or.inr (Or.inl ⟨hlocal, rfl, ?_⟩)
          simp only [Server.myHandleReq, hlocal, hargs]
          rfl
        · refine Or.inr (Or.inr ?_)
          simp [Server.myHandleReq, hlocal, hargs, hlen, hout, IsKeyRequest]
  · refine Or.inr (Or.inr ?_)
    simp [Server.myHandleReq, hlocal]

theorem seated_loginIp {s : Server} {ip tick : UInt32} (hban : s.isIpBanned ip = false)
    (hroom : s.HasRoom ip tick) :
    (s.loginIp ip tick).1.Seated ip ∧ (s.loginIp ip tick).1.isIpBanned ip = false := by
  rcases s.loginIp_cases tick hban with ⟨i, u, hi, -, h⟩ | ⟨hnone, -⟩
  · rw [h]
    exact ⟨Server.seated_setUser hi, hban⟩
  · exact absurd hroom hnone

/-- **One step serves well exactly when there is room.** -/
theorem servedWell_iff (crypt : List UInt8 → UInt8 → List UInt8) (s : Server) (op : Op) :
    ServedWell crypt s op ↔ HasSeat s op := by
  cases op with
  | request text ip clock random =>
    constructor
    · rintro ⟨hserved, -⟩ hlocal ⟨args, hargs, hlen⟩ hban
      have hkey := myHandleReq_key crypt clock random hlocal hargs hlen hban
      obtain ⟨-, hseated⟩ := hserved (crypt args random) (by rw [hkey])
      rw [hkey] at hseated
      rcases s.loginIp_cases (clock 0) hban with ⟨i, u, hi, hu, -⟩ | ⟨-, h⟩
      · exact ⟨u, List.mem_of_getElem? hi, hu⟩
      · rw [h] at hseated
        obtain ⟨u, hu, hip⟩ := hseated
        exact ⟨u, hu, Or.inl hip⟩
    · intro hseat
      constructor
      · intro c hc
        rcases myHandleReq_cases crypt s text ip clock random with
          ⟨hlocal, hkey, hban, h⟩ | ⟨-, -, h⟩ | ⟨-, h, -⟩
        · rw [h]
          exact (seated_loginIp hban (hseat hlocal hkey hban)).symm
        · rw [h] at hc
          exact absurd hc (by simp)
        · exact absurd hc (h c)
      · intro hlocal hkey hban hnot
        rcases myHandleReq_cases crypt s text ip clock random with
          ⟨-, -, hban₀, h⟩ | ⟨-, hout, -⟩ | ⟨h, -, hban₀⟩
        · rw [h] at hnot
          exact absurd (seated_loginIp hban₀ (hseat hlocal hkey hban₀)).1 hnot
        · obtain ⟨args, hargs, hlen⟩ := hkey
          rw [hout, Option.some.injEq] at hargs
          rw [← hargs] at hlen
          exact absurd hlen (by decide)
        · rw [h, hban₀ hlocal hkey] at hban
          exact absurd hban (by decide)
  | banIp ip => exact Iff.rfl
  | unbanIp ip => exact Iff.rfl
  | clearTimeoutIp clock => exact Iff.rfl

/-! ## Between two timeouts -/

/-- No seat that somebody has is given back or times out. -/
def NoSeatLost (s : Server) : Op → Prop
  | .request text ip clock _ =>
    (∀ u ∈ s.seats, u.ip ≠ 0 → u.timedOut (clock 0) = false) ∧
      (isLocalIp ip = true → arguments text ≠ some (ascii ['L', 'O', 'G', 'O', 'U', 'T']))
  | .clearTimeoutIp clock => ∀ u ∈ s.seats, u.ip ≠ 0 → ∀ i, u.timedOut (clock i) = false
  | _ => True

theorem Server.Seated.setUser {s : Server} {ip : UInt32} (h : s.Seated ip) {i : Nat}
    {u v : UserInfo} (hi : s.seats[i]? = some u) (hu : u.ip = ip → v.ip = ip) :
    (s.setUser i v).Seated ip := by
  obtain ⟨w, hw, hip⟩ := h
  obtain ⟨j, hj⟩ := List.mem_iff_getElem?.mp hw
  rcases eq_or_ne i j with rfl | hne
  · rw [hi, Option.some.injEq] at hj
    subst hj
    exact hu hip ▸ Server.seated_setUser hi
  · refine ⟨w, ?_, hip⟩
    rw [Server.seats_setUser]
    exact List.mem_of_getElem? ((List.getElem?_set_ne hne).trans hj)

/-- A loop over the seats keeps `ip` seated when it leaves `ip`'s entries alone. -/
theorem Server.Seated.mapSeats {s : Server} {ip : UInt32} (h : s.Seated ip)
    {f : Nat → UserInfo → UserInfo} (hf : ∀ i, ∀ u ∈ s.seats, u.ip = ip → f i u = u) :
    (s.mapSeats f).Seated ip := by
  obtain ⟨u, hu, hip⟩ := h
  obtain ⟨i, hi⟩ := List.mem_iff_getElem?.mp hu
  refine ⟨u, ?_, hip⟩
  rw [Server.seats_mapSeats]
  refine List.mem_of_getElem? (i := i) ?_
  rw [List.getElem?_mapIdx, hi, Option.map_some, hf i u hu hip]

theorem seats_banIp (s : Server) (ip : UInt32) : (s.banIp ip).seats = s.seats := by
  rw [Server.banIp]
  split <;> rfl

/-- **Nobody loses a seat** in a step where no seat times out or is given back. -/
theorem Server.Seated.step {s : Server} {ip : UInt32} (h : s.Seated ip) (h0 : ip ≠ 0) {op : Op}
    (hop : NoSeatLost s op) : (step crypt s op).Seated ip := by
  cases op with
  | request text ip' clock random =>
    obtain ⟨hlive, hlogout⟩ := hop
    rcases myHandleReq_cases crypt s text ip' clock random with
      ⟨-, -, hban, hstate⟩ | ⟨hlocal, hout, -⟩ | ⟨hstate, -⟩
    · rw [NetBar.step, hstate]
      rcases s.loginIp_cases (clock 0) hban with ⟨i, u, hi, hu, hlogin⟩ | ⟨-, hlogin⟩
      · rw [hlogin]
        -- the entry that is taken was `ip'`'s own, or free
        refine h.setUser hi (fun hip => ?_)
        rcases hu with hown | htime
        · exact hown.symm.trans hip
        · rw [hlive u (List.mem_of_getElem? hi) (hip ▸ h0)] at htime
          exact absurd htime (by decide)
      · rw [hlogin]
        exact h
    · exact absurd hout (hlogout hlocal)
    · rw [NetBar.step, hstate]
      exact h
  | banIp b =>
    rw [NetBar.step, Server.Seated, seats_banIp]
    exact h
  | unbanIp b => exact h
  | clearTimeoutIp clock =>
    refine h.mapSeats (fun i u hu hip => ?_)
    simp [hip, h0, hop u hu (hip ▸ h0) i]

def passkeySent (crypt : List UInt8 → UInt8 → List UInt8) (s : Server) : Op → Option UInt32
  | .request text ip clock random =>
    match (s.myHandleReq crypt text ip clock random).2 with
    | .reply (.passkey _) => some ip
    | _ => none
  | _ => none

def served (crypt : List UInt8 → UInt8 → List UInt8) : Server → List Op → List UInt32
  | _, [] => []
  | s, op :: ops => (passkeySent crypt s op).toList ++ served crypt (step crypt s op) ops

theorem maxUser_step (s : Server) (op : Op) : (step crypt s op).maxUser = s.maxUser := by
  cases op with
  | request text ip clock random =>
    rcases myHandleReq_cases crypt s text ip clock random with
      ⟨-, -, hban, h⟩ | ⟨-, -, h⟩ | ⟨h, -⟩
    · rw [step, h]
      rcases s.loginIp_cases (clock 0) hban with ⟨i, u, -, -, h⟩ | ⟨-, h⟩
      · rw [h]
        rfl
      · rw [h]
    · rw [step, h]
      rfl
    · rw [step, h]
  | banIp ip =>
    rw [step, Server.banIp]
    split <;> rfl
  | unbanIp ip => rfl
  | clearTimeoutIp clock => rfl

theorem maxUser_run : ∀ (ops : List Op) (s : Server),
    (run (step crypt) s ops).maxUser = s.maxUser := by
  intro ops
  induction ops with
  | nil => intro s; rfl
  | cons op ops ih => intro s; rw [run_cons, ih, maxUser_step]

/-- Who is served with room has a seat afterwards. -/
theorem seated_of_passkeySent {s : Server} {op : Op} (hseat : HasSeat s op) {ip : UInt32}
    (hip : passkeySent crypt s op = some ip) : ip ≠ 0 ∧ (step crypt s op).Seated ip := by
  cases op with
  | request text ip' clock random =>
    rw [passkeySent] at hip
    rcases myHandleReq_cases crypt s text ip' clock random with
      ⟨hlocal, -, -, -⟩ | ⟨-, -, h⟩ | ⟨-, h, -⟩
    · obtain ⟨hserved, -⟩ := (servedWell_iff crypt s _).mpr hseat
      split at hip
      · rename_i c hc
        rw [Option.some.injEq] at hip
        subst hip
        refine ⟨?_, (hserved c hc).2⟩
        rintro rfl
        exact absurd hlocal (by decide)
      · exact absurd hip (by simp)
    · rw [h] at hip
      exact absurd hip (by simp)
    · split at hip
      · rename_i c hc
        exact absurd hc (h c)
      · exact absurd hip (by simp)
  | banIp b => exact absurd hip (by simp [passkeySent])
  | unbanIp b => exact absurd hip (by simp [passkeySent])
  | clearTimeoutIp clock => exact absurd hip (by simp [passkeySent])

theorem Server.Seated.run : ∀ (ops : List Op) {s : Server} {ip : UInt32}, s.Seated ip → ip ≠ 0 →
    Along (NetBar.step crypt) NoSeatLost s ops → (run (NetBar.step crypt) s ops).Seated ip := by
  intro ops
  induction ops with
  | nil => intro s ip h _ _; exact h
  | cons op ops ih =>
    intro s ip h h0 hops
    exact ih (h.step h0 hops.1) h0 hops.2

/-- **Everyone served is still seated** at the end, while nobody loses a seat. -/
theorem seated_of_served : ∀ (ops : List Op) (s : Server), Along (step crypt) HasSeat s ops →
    Along (step crypt) NoSeatLost s ops → ∀ ip ∈ served crypt s ops,
      (run (step crypt) s ops).Seated ip := by
  intro ops
  induction ops with
  | nil => intro s _ _ ip hip; exact absurd hip (List.not_mem_nil)
  | cons op ops ih =>
    intro s hseat hlost ip hip
    rw [served, List.mem_append, Option.mem_toList] at hip
    rcases hip with hip | hip
    · obtain ⟨h0, hs⟩ := seated_of_passkeySent hseat.1 hip
      exact hs.run ops h0 hlost.2
    · exact ih _ hseat.2 hlost.2 ip hip

/-- So at most `max_user` addresses are served. -/
theorem served_card_le {s : Server} {ops : List Op} (hseat : Along (step crypt) HasSeat s ops)
    (hlost : Along (step crypt) NoSeatLost s ops) :
    (served crypt s ops).toFinset.card ≤ s.maxUser := by
  set t := run (step crypt) s ops with ht
  have hsub : (served crypt s ops).toFinset ⊆ (t.seats.map UserInfo.ip).toFinset := by
    intro ip hip
    rw [List.mem_toFinset] at hip ⊢
    obtain ⟨u, hu, rfl⟩ := seated_of_served ops s hseat hlost ip hip
    exact List.mem_map_of_mem hu
  calc (served crypt s ops).toFinset.card
      ≤ (t.seats.map UserInfo.ip).toFinset.card := Finset.card_le_card hsub
    _ ≤ (t.seats.map UserInfo.ip).length := List.toFinset_card_le _
    _ = s.maxUser := by rw [List.length_map, Server.length_seats, ht, maxUser_run]

/-! ## Whole runs -/

/-- **The seat limit, while there is room.**  A run serves well from beginning to
end exactly when every request finds room, and then any stretch of it in which
nobody loses a seat serves at most `max_user` addresses. -/
theorem passkey_seat_limit (crypt : List UInt8 → UInt8 → List UInt8) (s : Server)
    (ops₁ ops₂ : List Op) :
    (Along (step crypt) (ServedWell crypt) s (ops₁ ++ ops₂) ↔
      Along (step crypt) HasSeat s (ops₁ ++ ops₂)) ∧
    (Along (step crypt) HasSeat s (ops₁ ++ ops₂) →
      Along (step crypt) NoSeatLost (run (step crypt) s ops₁) ops₂ →
        (served crypt (run (step crypt) s ops₁) ops₂).toFinset.card ≤ s.maxUser) := by
  refine ⟨along_congr (servedWell_iff crypt) _ s, fun hseat hlost => ?_⟩
  rw [along_append] at hseat
  exact (served_card_le hseat.2 hlost).trans_eq (maxUser_run ops₁ s)

def keyRequest : List UInt8 :=
  ascii ['G', 'E', 'T', ' ', '/'] ++ List.replicate 64 48 ++
    ascii [' ', 'H', 'T', 'T', 'P', '/', '1', '.', '1']

theorem isKeyRequest_keyRequest : IsKeyRequest keyRequest :=
  ⟨List.replicate 64 48, by decide, by decide⟩

/-- Two seats and two clients. -/
theorem passkey_seat_limit_two :
    let crypt := fun _ _ => List.replicate 128 0
    let ops := [Op.request keyRequest 0x0100007F (fun _ => 200000) 7,
      Op.request keyRequest 0x0200A8C0 (fun _ => 200001) 9]
    (served crypt (Server.initial 2 (by decide)) ops).toFinset.card ≤ 2 := by
  refine (passkey_seat_limit _ _ [] _).2 ⟨?_, ?_, trivial⟩ ⟨⟨?_, ?_⟩, ⟨?_, ?_⟩, trivial⟩
  · exact fun _ _ _ => by decide
  · exact fun _ _ _ => by decide +kernel
  · decide
  · decide
  · decide +kernel
  · decide

/-- One seat and two clients: the second is sent the passkey as well. -/
theorem passkey_without_seat :
    let crypt := fun _ _ => List.replicate 128 0
    ¬ Along (step crypt) (ServedWell crypt) (Server.initial 1 (by decide))
      [Op.request keyRequest 0x0100007F (fun _ => 200000) 7,
        Op.request keyRequest 0x0200A8C0 (fun _ => 200001) 9] := by
  intro crypt h
  obtain ⟨-, h, -⟩ := (along_congr (servedWell_iff crypt) _ _).mp h
  have hroom := h (by decide) isKeyRequest_keyRequest (by decide +kernel)
  exact absurd hroom (by decide +kernel)

end DWindow.NetBar
