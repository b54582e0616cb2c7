import DWindow.Lib.CString
import Mathlib.Data.Int.Basic

/-!
# The NetBar server

`server.cpp`: a table of seats, a table of banned addresses, and the handler of a
request.  A request of `64` characters asks for the passkey, which is sent
encrypted with the key in the request, `LOGOUT` gives the seat back.  Loops over
the seats see the first `max_user` entries.  `GetTickCount` is asked once a login
and once a seat when seats are cleared, so those functions take a clock, its
readings in order.

The list boxes of the window are left out, and the encryption of the passkey is
a parameter `crypt`: what it makes of the request's characters and the random
byte.
-/

namespace DWindow.NetBar

open CString

/-- `HEARTBEEP_TIMEOUT`, two minutes. -/
def HEARTBEEP_TIMEOUT : UInt32 := 120000

def MAX_USER_SLOT : Nat := 2048

def S_OK : Int := 0

def E_FAIL : Int := -2147467259

def ERROR_NO_MORE_USER_HANDLES : Int := 1158

def succeeded (hr : Int) : Bool := decide (0 ≤ hr)

/-- `user_info`: an entry of `active_users`. -/
structure UserInfo where
  tick : UInt32
  ip : UInt32
deriving DecidableEq, Repr

def UserInfo.free : UserInfo := ⟨0, 0⟩

/-- `now - tick > HEARTBEEP_TIMEOUT`, in unsigned arithmetic. -/
def UserInfo.timedOut (u : UserInfo) (now : UInt32) : Bool :=
  decide (now - u.tick > HEARTBEEP_TIMEOUT)

structure Server where
  maxUser : Nat
  activeUsers : List UserInfo
  bannedUsers : List UInt32
  maxUser_le : maxUser ≤ MAX_USER_SLOT
  length_activeUsers : activeUsers.length = MAX_USER_SLOT
  length_bannedUsers : bannedUsers.length = MAX_USER_SLOT

namespace Server

def initial (maxUser : Nat) (h : maxUser ≤ MAX_USER_SLOT) : Server where
  maxUser := maxUser
  activeUsers := List.replicate MAX_USER_SLOT .free
  bannedUsers := List.replicate MAX_USER_SLOT 0
  maxUser_le := h
  length_activeUsers := List.length_replicate
  length_bannedUsers := List.length_replicate

def seats (s : Server) : List UserInfo := s.activeUsers.take s.maxUser

/-- Write entry `i`. -/
def setUser (s : Server) (i : Nat) (u : UserInfo) : Server := { s with
  activeUsers := s.activeUsers.set i u
  length_activeUsers := by rw [List.length_set, s.length_activeUsers] }

/-- A loop over the seats that rewrites each of them. -/
def mapSeats (s : Server) (f : Nat → UserInfo → UserInfo) : Server := { s with
  activeUsers := s.seats.mapIdx f ++ s.activeUsers.drop s.maxUser
  length_activeUsers := by
    rw [List.length_append, List.length_mapIdx, ← List.length_append, seats,
      List.take_append_drop, s.length_activeUsers] }

def isIpBanned (s : Server) (ip : UInt32) : Bool := s.bannedUsers.any (· == ip)

/-- `login_ip`: the result and the tables afterwards. -/
def loginIp (s : Server) (ip : UInt32) (tick : UInt32) : Server × Int :=
  if s.isIpBanned ip then (s, E_FAIL)
  else match s.seats.findIdx? (fun u => u.ip == ip) with
    | some i => (s.setUser i ⟨tick, ip⟩, S_OK)
    | none =>
      match s.seats.findIdx? (fun u => u.timedOut tick) with
      | some i => (s.setUser i ⟨tick, ip⟩, S_OK)
      | none => (s, ERROR_NO_MORE_USER_HANDLES)

/-- The loop that frees a seat that is empty or has timed out. -/
def freeTimedOut (s : Server) (clock : Nat → UInt32) : Server :=
  s.mapSeats (fun i u => if u.ip == 0 || u.timedOut (clock i) then .free else u)

def logoutIp (s : Server) (ip : UInt32) (clock : Nat → UInt32) : Server :=
  (s.mapSeats (fun _ u => if u.ip == ip then .free else u)).freeTimedOut clock

def clearTimeoutIp (s : Server) (clock : Nat → UInt32) : Server := s.freeTimedOut clock

def banIp (s : Server) (ip : UInt32) : Server :=
  match s.bannedUsers.findIdx? (· == 0) with
  | some i => { s with
      bannedUsers := s.bannedUsers.set i ip
      length_bannedUsers := by rw [List.length_set, s.length_bannedUsers] }
  | none => s

def unbanIp (s : Server) (ip : UInt32) : Server := { s with
  bannedUsers := s.bannedUsers.map (fun b => if b == ip then 0 else b)
  length_bannedUsers := by rw [List.length_map, s.length_bannedUsers] }

end Server

/-- Addresses of the machine itself and of two private networks, as
`my_handle_req` tests them. -/
def isLocalIp (ip : UInt32) : Bool :=
  ip == 0x0100007F || (ip &&& 0x0000A8C0) == 0x0000A8C0 || (ip &&& 0x000010AC) == 0x000010AC

/-- The second word of the request, without a leading slash. -/
def arguments (request : List UInt8) : Option (List UInt8) :=
  match token request with
  | none => none
  | some (_, rest) =>
    match token rest with
    | none => none
    | some (arguments, _) => some (if arguments.head? = some 47 then arguments.tail else arguments)

inductive Content where
  | unkownArgument
  | ipDenied
  | passkey (cryptedPasskey : List UInt8)
  | serverFull
  | ok
deriving DecidableEq, Repr

/-- `reply`. -/
def Content.text : Content → List UInt8
  | unkownArgument =>
    ascii ['U', 'n', 'k', 'o', 'w', 'n', ' ', 'A', 'r', 'g', 'u', 'm', 'e', 'n', 't']
  | ipDenied => ascii ['I', 'P', ' ', 'd', 'e', 'n', 'i', 'e', 'd']
  | passkey cryptedPasskey => cryptedPasskey.flatMap hexByte
  | serverFull => ascii ['S', 'E', 'R', 'V', 'E', 'R', ' ', 'F', 'U', 'L', 'L']
  | ok => ascii ['O', 'K']

def Content.response (content : Content) : List UInt8 :=
  ascii ['H', 'T', 'T', 'P', '/', '1', '.', '1', ' ', '2', '0', '0', ' ', 'O', 'K', '\r', '\n'] ++
    ascii ['C', 'o', 'n', 't', 'e', 'n', 't', '-', 'L', 'e', 'n', 'g', 't', 'h', ':', ' '] ++
    decimal content.text.length ++ ascii ['\r', '\n', '\r', '\n'] ++ content.text

/-- What a client gets: a closed socket, nothing, or a reply. -/
inductive Answer where
  | closed
  | ignored
  | reply (content : Content)
deriving DecidableEq, Repr

variable (crypt : List UInt8 → UInt8 → List UInt8)

def Server.myHandleReq (s : Server) (request : List UInt8) (ip : UInt32) (clock : Nat → UInt32)
    (random : UInt8) : Server × Answer :=
  if !isLocalIp ip then (s, .closed)
  else match arguments request with
    | none => (s, .ignored)
    | some arguments =>
      if arguments.length = 64 then
        if s.isIpBanned ip then (s, .reply .ipDenied)
        else
          let (s, hr) := s.loginIp ip (clock 0)
          if succeeded hr then (s, .reply (.passkey (crypt arguments random)))
          else (s, .reply .serverFull)
      else if arguments = ascii ['L', 'O', 'G', 'O', 'U', 'T'] then
        (s.logoutIp ip clock, .reply .ok)
      else (s, .reply .unkownArgument)

inductive Op where
  | request (text : List UInt8) (ip : UInt32) (clock : Nat → UInt32) (random : UInt8)
  | banIp (ip : UInt32)
  | unbanIp (ip : UInt32)
  | clearTimeoutIp (clock : Nat → UInt32)

def step (s : Server) : Op → Server
  | .request text ip clock random => (s.myHandleReq crypt text ip clock random).1
  | .banIp ip => s.banIp ip
  | .unbanIp ip => s.unbanIp ip
  | .clearTimeoutIp clock => s.clearTimeoutIp clock

end DWindow.NetBar
