import DWindow.Lib.Utf
import DWindow.Net.Handler

/-!
# No command in front of the login

The login is a line whose text begins with the fields `auth` and the password.  A text ends at the
first zero, so a login line may go on behind one.  However `recv` cuts the bytes, the lines, the
answers and the login are the same.
-/

namespace DWindow.Net

open WString

namespace Server

variable {σ : Type*} {s : Server σ} {c : Conn σ} {pre stream : List UInt8}

theorem logsIn_of_login {text : List UInt16} (h : (s.login text).1) : s.LogsIn text := by
  rw [login] at h
  split at h
  · next first second more hparts =>
    split at h
    · next hauth =>
      split at h
      · next hpassword =>
        obtain ⟨more, hfields⟩ := splitOn_of_wcsexplode (by decide) hparts
        exact ⟨first, more, hpassword ▸ hfields, hauth⟩
      · cases h
    · cases h
  · cases h

/-- A login line has been ended in front. -/
def LoggedIn (s : Server σ) (stream : List UInt8) : Prop :=
  ∃ j < stream.length, stream[j]? = some CR ∧ s.LogsIn (s.text (lineOf (stream.take j)))

theorem LoggedIn.concat (h : s.LoggedIn pre) (b : UInt8) : s.LoggedIn (pre ++ [b]) := by
  obtain ⟨j, hj, hcr, hlogs⟩ := h
  refine ⟨j, ?_, ?_, ?_⟩
  · rw [List.length_append]
    exact Nat.lt_add_right _ hj
  · rw [List.getElem?_append_left hj, hcr]
  · rwa [List.take_append_of_le_length hj.le]

/-- **One byte** logs in only when it ends a login line. -/
theorem LoggedIn.feed (hconv : s.Converts) (h : Holds c pre) (hpre : (lineOf pre).length < LINE)
    (hauth : c.auth → s.LoggedIn pre) (b : UInt8) :
    (s.feed c b).auth → s.LoggedIn (pre ++ [b]) := by
  rw [Server.feed]
  split
  · exact fun hin => (hauth hin).concat b
  · split
    · exact fun hin => (hauth hin).concat b
    · split
      · next hcr =>
        intro hin
        obtain hin | hin := auth_handle hin
        · exact (hauth hin).concat b
        · rw [h.current hpre hconv] at hin
          refine ⟨pre.length, ?_, ?_, ?_⟩
          · rw [List.length_append]
            exact Nat.lt_succ_self _
          · rw [List.getElem?_concat_length, hcr]
          · rw [List.take_left]
            exact logsIn_of_login hin
      · exact fun hin => (hauth hin).concat b

/-- One byte executes a line only when the client is logged in. -/
theorem auth_of_executed {b : UInt8} (h : (s.feed c b).executed ≠ c.executed) : c.auth := by
  rw [feed] at h
  split at h
  · exact absurd rfl h
  · split at h
    · exact absurd rfl h
    · split at h
      · by_contra hauth
        refine h (if_neg fun hand => hauth ?_)
        exact (Bool.and_eq_true_iff.mp hand).1
      · exact absurd rfl h

/-- **All bytes.** -/
theorem received_holds (hconv : s.Converts) {line outA : List UInt8} {player : σ}
    (hline : line.length = LINE) : ∀ stream : List UInt8,
    (∀ k, (lineOf (stream.take k)).length < LINE) →
    Holds (s.received (accepted line outA player) stream) stream ∧
      ((s.received (accepted line outA player) stream).auth → s.LoggedIn stream) := by
  intro stream
  induction stream using List.reverseRecOn with
  | nil =>
    intro _
    exact ⟨⟨hline, rfl, rfl⟩, fun hin => by cases hin⟩
  | append_singleton pre b ih =>
    intro hroom
    have hpre : ∀ k, (lineOf (pre.take k)).length < LINE := by
      intro k
      have hk := hroom (min k pre.length)
      rwa [List.take_append_of_le_length (Nat.min_le_right _ _), ← List.take_take,
        List.take_length] at hk
    obtain ⟨hholds, hauth⟩ := ih hpre
    have hlast := hpre pre.length
    rw [List.take_length] at hlast
    rw [received_concat]
    exact ⟨hholds.feed hlast s b, LoggedIn.feed hconv hholds hlast hauth b⟩

/-- **The cut does not matter.** -/
theorem handlerThread_eq (s : Server σ) : ∀ (bufs : List (List UInt8)) (c : Conn σ),
    (∀ buf ∈ bufs, buf ≠ []) → s.handlerThread c bufs = s.received c bufs.flatten := by
  intro bufs
  induction bufs with
  | nil => intro c _; rfl
  | cons buf bufs ih =>
    intro c h
    rw [List.forall_mem_cons] at h
    rw [handlerThread, if_neg h.1, ih _ h.2, List.flatten_cons]
    exact List.foldl_append.symm

/-- **No command is executed in front of a login**, and all that happens depends on the bytes
alone. -/
theorem no_command_before_auth (s : Server σ) (hconv : s.Converts) (line outA : List UInt8)
    (player : σ) (hline : line.length = LINE) (stream : List UInt8)
    (hroom : ∀ k, (lineOf (stream.take k)).length < LINE) :
    (∀ k < stream.length, (s.received (accepted line outA player) (stream.take (k + 1))).executed ≠
        (s.received (accepted line outA player) (stream.take k)).executed →
      ∃ j < k, stream[j]? = some CR ∧ s.LogsIn (s.text (lineOf (stream.take j)))) ∧
    ∀ bufs, Cuts bufs stream → s.handlerThread (accepted line outA player) bufs =
      s.received (accepted line outA player) stream := by
  refine ⟨fun k hk hexecuted => ?_, fun bufs hcuts => ?_⟩
  · rw [List.take_succ_eq_append_getElem hk, received_concat] at hexecuted
    have hroom' : ∀ i, (lineOf ((stream.take k).take i)).length < LINE := fun i => by
      rw [List.take_take]
      exact hroom _
    obtain ⟨j, hj, hcr, hlogs⟩ :=
      (received_holds hconv hline _ hroom').2 (auth_of_executed hexecuted)
    rw [List.length_take, Nat.min_eq_left hk.le] at hj
    rw [List.getElem?_take_of_lt hj] at hcr
    rw [List.take_take, Nat.min_eq_left hj.le] at hlogs
    exact ⟨j, hj, hcr, hlogs⟩
  · rw [handlerThread_eq s bufs _ fun buf hbuf => (hcuts.size buf hbuf).1, hcuts.flatten]

theorem zero_not_mem_nil : (0 : UInt16) ∉ ([] : List UInt16) := List.not_mem_nil

theorem length_threeBytes : ([1, 2, 3] : List UInt8).length < 2 ^ 31 := by decide

/-- A server for ASCII texts that answers `shot` with three bytes and every other command with the
command. -/
def echo : Server Unit where
  password := wide "pw".toList
  reciever := some fun _ text => ((),
    if text = wide "shot".toList then
      ⟨S_RAWDATA, ⟨[], zero_not_mem_nil⟩, ⟨[1, 2, 3], length_threeBytes⟩⟩
    else .ofText S_OK ⟨cstr text, not_mem_cstr text⟩)
  toWide line := line.map fun b => UInt16.ofNat b.toNat
  toUtf8 _ text := text.flatMap Utf.utf8

theorem echo_converts : echo.Converts := by
  intro str rest hzero
  have hmap : (0 : UInt16) ∉ str.map fun b => UInt16.ofNat b.toNat := by
    rw [List.mem_map]
    rintro ⟨b, hb, hb0⟩
    have hlt := b.toNat_lt
    have hnat := congrArg UInt16.toNat hb0
    rw [UInt16.toNat_ofNat', Nat.mod_eq_of_lt (by omega)] at hnat
    have heq : b = 0 := UInt8.toNat_inj.mp hnat
    rw [heq] at hb
    exact hzero hb
  show cstr ((str ++ 0 :: rest).map fun b => UInt16.ofNat b.toNat) = _
  rw [List.map_append]
  exact cstr_append hmap _

def loginStream : List UInt8 := CString.ascii "auth|pw\r\nhi\r".toList

theorem no_command_before_auth_echo :
    (∀ k < loginStream.length,
      (echo.received (accepted (List.replicate LINE 0) [] ()) (loginStream.take (k + 1))).executed ≠
        (echo.received (accepted (List.replicate LINE 0) [] ()) (loginStream.take k)).executed →
      ∃ j < k, loginStream[j]? = some CR ∧
        echo.LogsIn (echo.text (lineOf (loginStream.take j)))) ∧
    ∀ bufs, Cuts bufs loginStream →
      echo.handlerThread (accepted (List.replicate LINE 0) [] ()) bufs =
        echo.received (accepted (List.replicate LINE 0) [] ()) loginStream := by
  refine no_command_before_auth echo echo_converts _ [] () List.length_replicate _ fun k => ?_
  have hlength : loginStream.length = 12 := by decide
  have hle := length_lineOf_le (loginStream.take k)
  rw [List.length_take] at hle
  exact lt_of_le_of_lt (hle.trans (Nat.min_le_right ..)) (by rw [hlength]; decide)

def zeroStream : List UInt8 := CString.ascii "auth|pw\x00x\r\nhi\r".toList

/-- The second field of the line is not the password, and the command is executed. -/
theorem executed_behind_zero : ¬∀ k < zeroStream.length,
    (echo.received (accepted (List.replicate LINE 0) [] ()) (zeroStream.take (k + 1))).executed ≠
      (echo.received (accepted (List.replicate LINE 0) [] ()) (zeroStream.take k)).executed →
    ∃ j < k, zeroStream[j]? = some CR ∧
      echo.LogsIn (echo.toWide (lineOf (zeroStream.take j))) := by
  intro h
  have hline : ∀ j < 13, zeroStream[j]? = some CR →
      ((echo.toWide (lineOf (zeroStream.take j))).splitOn PIPE)[1]? ≠ some echo.password := by
    decide
  obtain ⟨j, hj, hcr, first, more, hfields, -⟩ := h 13 (by decide) (by decide)
  refine hline j hj hcr ?_
  rw [hfields]
  rfl

end Server

end DWindow.Net
