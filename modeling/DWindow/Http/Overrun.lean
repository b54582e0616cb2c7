import DWindow.Http.Response

/-!
# Where a response is written

`send_request` puts the bytes of a header line into `response` one by one, and what it finds in
the line into buffers of its own.  Each write is an extent of a buffer.  The place in `response`
is compared with nothing, and on Linux the value of `Content-Length` goes to a buffer of 1000
bytes: all writes are inside exactly when every line and every such value fits
(`responseSafe_iff`).  There is no error for a header that does not fit.
-/

namespace DWindow.Http

open CInt CString WString Decimal

/-! ## Extents -/

/-- A write: the size of the buffer, and the place behind what is written. -/
structure Extent where
  size : Nat
  upto : Nat
deriving DecidableEq, Repr

/-- It lies in its buffer. -/
def Extent.Inside (e : Extent) : Prop := e.upto ≤ e.size

instance (e : Extent) : Decidable e.Inside := inferInstanceAs (Decidable (_ ≤ _))

@[simp] theorem inside_mk (size upto : Nat) : (⟨size, upto⟩ : Extent).Inside ↔ upto ≤ size :=
  Iff.rfl

/-- `utf8`, on Linux. -/
def lengthBufferSize : Nat := 1000

/-- `wcstrim` with some characters, of a string at a place. -/
def trimWrites (size start : Nat) : List UInt16 → List UInt16 → List Extent
  | [], _ => []
  | c :: chars, str =>
    ⟨size, start + (wcstrim c str).length + 1⟩ :: trimWrites size start chars (wcstrim c str)

/-- `location`. -/
def locationWrites (mURL value : List UInt16) : List Extent :=
  if wide "http://".toList <+: value then
    ⟨value.length + 1, value.length + 1⟩ :: trimWrites (value.length + 1) 0 [13, 10] value
  else
    let size := value.length + mURL.length + 2
    let front := mURL.rdropWhile (· ≠ 47)
    [⟨size, mURL.length + 1⟩,
      -- without a slash `wcsrchr` returns NULL
      if 47 ∈ mURL then ⟨size, front.length + value.length + 1⟩ else ⟨0, value.length + 1⟩] ++
      trimWrites size 0 [13, 10] (front ++ value)

/-- What a line makes `send_request` write, behind `response`. -/
def lineWrites (linux : Bool) (w : World) (mURL : List UInt16) (line : List UInt8) :
    List Extent :=
  let text := line.takeWhile (· ≠ 0)
  if ascii "HTTP".toList <+: text then []
  else
    let size := line.length + 1
    let str := w.utf82w text
    ⟨size, str.length + 1⟩ ::
      match str.dropWhile (· ≠ 58) with
      | [] => []
      | _ :: rest =>
        let name := str.takeWhile (· ≠ 58)
        let value := wcstrim 10 (wcstrim 13 (wcstrim 32 rest))
        ⟨size, name.length + 1⟩ :: trimWrites size (name.length + 1) [32, 13, 10] rest ++
          (if name = wide "Content-Length".toList ∧ linux = true then
            [⟨lengthBufferSize, (w.w2utf8 value).length⟩] else []) ++
          if name = wide "Location".toList then locationWrites mURL value else []

/-- The loop that reads the header, with what has come of the line being read. -/
def streamWrites (linux : Bool) (w : World) (mURL : List UInt16) (line : List UInt8) :
    List UInt8 → List Extent
  | [] => []
  | c :: stream =>
    ⟨maxResponseSize, line.length + 1⟩ ::
      if crlf <:+ line ++ [c] then
        ⟨maxResponseSize, line.length + 2⟩ ::
          if line.length + 1 = 2 then []
          else lineWrites linux w mURL (line ++ [c]) ++ streamWrites linux w mURL [] stream
      else streamWrites linux w mURL (line ++ [c]) stream

/-! ## Lines that fit -/

/-- The lines of a header in front of the blank one, and what has come of a line without an
end. -/
def headerLines (line : List UInt8) : List UInt8 → List (List UInt8) × List UInt8
  | [] => ([], line)
  | c :: stream =>
    if crlf <:+ line ++ [c] then
      if line.length + 1 = 2 then ([], [])
      else ((line ++ [c]) :: (headerLines [] stream).1, (headerLines [] stream).2)
    else headerLines (line ++ [c]) stream

/-- On Linux the value of a `Content-Length` has at most 1000 bytes. -/
def LengthFits (linux : Bool) (w : World) (line : List UInt8) : Prop :=
  linux = true → ∀ value, parseLine w line = .header (wide "Content-Length".toList) value →
    (w.w2utf8 value).length ≤ lengthBufferSize

/-- A line fits with the terminator behind it, and so does its value. -/
def LineFits (linux : Bool) (w : World) (line : List UInt8) : Prop :=
  line.length + 1 ≤ maxResponseSize ∧ LengthFits linux w line

/-- All the lines of a header fit, and what comes behind the last one. -/
def HeaderFits (linux : Bool) (w : World) (line stream : List UInt8) : Prop :=
  (∀ l ∈ (headerLines line stream).1, LineFits linux w l) ∧
    (headerLines line stream).2.length ≤ maxResponseSize

/-- `UTF82W` makes no more characters of a text than it has bytes. -/
def World.Shrinks (w : World) : Prop := ∀ text, (w.utf82w text).length ≤ text.length

variable {linux : Bool} {w : World} {mURL : List UInt16}

/-! ## One line -/

theorem trimWrites_inside {size start : Nat} : ∀ (chars str : List UInt16),
    start + str.length + 1 ≤ size → ∀ e ∈ trimWrites size start chars str, e.Inside := by
  intro chars
  induction chars with
  | nil => intro str _ e he; exact absurd he List.not_mem_nil
  | cons c chars ih =>
    intro str h
    have hle := length_wcstrim_le c str
    rw [trimWrites, List.forall_mem_cons, inside_mk]
    exact ⟨by omega, ih _ (by omega)⟩

theorem locationWrites_inside (hurl : 47 ∈ mURL) (value : List UInt16) :
    ∀ e ∈ locationWrites mURL value, e.Inside := by
  have hfront : (mURL.rdropWhile (· ≠ 47)).length ≤ mURL.length :=
    (List.rdropWhile_prefix _ _).length_le
  rw [locationWrites]
  by_cases hhttp : wide "http://".toList <+: value
  · rw [if_pos hhttp, List.forall_mem_cons, inside_mk]
    exact ⟨le_rfl, trimWrites_inside _ _ (by omega)⟩
  · rw [if_neg hhttp]
    dsimp only
    rw [if_pos hurl, List.forall_mem_append, List.forall_mem_cons, List.forall_mem_singleton,
      inside_mk, inside_mk]
    refine ⟨⟨by omega, by omega⟩, trimWrites_inside _ _ ?_⟩
    rw [List.length_append]
    omega

/-- **What a line makes `send_request` write** is inside exactly when the value fits. -/
theorem lineWrites_inside_iff (hw : w.Shrinks) (hurl : 47 ∈ mURL) (line : List UInt8) :
    (∀ e ∈ lineWrites linux w mURL line, e.Inside) ↔ LengthFits linux w line := by
  have htext := (hw (line.takeWhile (· ≠ 0))).trans (List.takeWhile_prefix _).length_le
  rw [lineWrites, LengthFits, parseLine]
  dsimp only
  split
  · refine iff_of_true (fun e he => absurd he List.not_mem_nil) fun _ value h => ?_
    split at h <;> cases h
  · have hsplit := List.takeWhile_append_dropWhile (p := (· ≠ (58 : UInt16)))
      (l := w.utf82w (line.takeWhile (· ≠ 0)))
    cases hrest : (w.utf82w (line.takeWhile (· ≠ 0))).dropWhile (· ≠ 58) with
    | nil =>
      dsimp only
      refine iff_of_true ?_ fun _ value h => by cases h
      rw [List.forall_mem_singleton, inside_mk]
      omega
    | cons colon rest =>
      have hlength := congrArg List.length hsplit
      rw [hrest, List.length_append, List.length_cons] at hlength
      dsimp only
      rw [List.forall_mem_cons, List.forall_mem_append, List.forall_mem_append,
        List.forall_mem_cons, inside_mk, inside_mk]
      have hlocation : ∀ e ∈ (if (w.utf82w (line.takeWhile (· ≠ 0))).takeWhile (· ≠ 58) =
          wide "Location".toList then
            locationWrites mURL (wcstrim 10 (wcstrim 13 (wcstrim 32 rest))) else []),
          e.Inside := by
        split
        · exact locationWrites_inside hurl _
        · exact fun e he => absurd he List.not_mem_nil
      constructor
      · rintro ⟨-, ⟨-, hvalue⟩, -⟩ hlinux value heq
        injection heq with hname hstr
        rw [if_pos ⟨hname, hlinux⟩, List.forall_mem_singleton, inside_mk] at hvalue
        rwa [← hstr]
      · intro h
        refine ⟨by omega, ⟨⟨by omega, trimWrites_inside _ _ (by omega)⟩, ?_⟩, hlocation⟩
        split
        · rename_i hname
          rw [List.forall_mem_singleton, inside_mk]
          exact h hname.2 _ (congrArg₂ HeaderLine.header hname.1 rfl)
        · exact fun e he => absurd he List.not_mem_nil

/-! ## The header -/

theorem HeaderFits.length_le : ∀ (stream : List UInt8) {line : List UInt8},
    HeaderFits linux w line stream → line.length ≤ maxResponseSize ∨ line.length + 1 = 2 := by
  intro stream
  induction stream with
  | nil => intro line h; exact Or.inl h.2
  | cons c stream ih =>
    intro line h
    rw [HeaderFits, headerLines] at h
    split at h
    · split at h
      · rename_i hblank
        exact Or.inr hblank
      · have hline := (h.1 (line ++ [c]) List.mem_cons_self).1
        rw [List.length_append, List.length_singleton] at hline
        exact Or.inl (by omega)
    · obtain hle | hone := ih h
      · rw [List.length_append, List.length_singleton] at hle
        exact Or.inl (by omega)
      · rw [List.length_append, List.length_singleton] at hone
        exact Or.inl (by rw [maxResponseSize]; omega)

/-- **The writes of a header** are inside exactly when its lines fit. -/
theorem streamWrites_inside_iff (hw : w.Shrinks) (hurl : 47 ∈ mURL) : ∀ (stream : List UInt8)
    {line : List UInt8}, line.length ≤ maxResponseSize →
      ((∀ e ∈ streamWrites linux w mURL line stream, e.Inside) ↔
        HeaderFits linux w line stream) := by
  intro stream
  induction stream with
  | nil =>
    intro line h
    exact iff_of_true (fun e he => absurd he List.not_mem_nil)
      ⟨fun l hl => absurd hl List.not_mem_nil, h⟩
  | cons c stream ih =>
    intro line h
    have hlength : (line ++ [c]).length = line.length + 1 := by
      rw [List.length_append, List.length_singleton]
    rw [streamWrites, List.forall_mem_cons, inside_mk, HeaderFits, headerLines]
    by_cases hend : crlf <:+ line ++ [c]
    · rw [if_pos hend, if_pos hend, List.forall_mem_cons, inside_mk]
      by_cases hblank : line.length + 1 = 2
      · rw [if_pos hblank, if_pos hblank]
        have hsmall : maxResponseSize = 10240 := rfl
        refine iff_of_true ⟨by omega, by omega, ?_⟩ ⟨?_, Nat.zero_le _⟩
        · exact fun e he => absurd he List.not_mem_nil
        · exact fun l hl => absurd hl List.not_mem_nil
      · rw [if_neg hblank, if_neg hblank, List.forall_mem_append, lineWrites_inside_iff hw hurl,
          ih (Nat.zero_le _), HeaderFits, List.forall_mem_cons, LineFits, hlength]
        constructor
        · rintro ⟨-, hline, hvalue, hrest⟩
          exact ⟨⟨⟨by omega, hvalue⟩, hrest.1⟩, hrest.2⟩
        · rintro ⟨⟨⟨hline, hvalue⟩, hlines⟩, hrest⟩
          exact ⟨by omega, by omega, hvalue, hlines, hrest⟩
    · rw [if_neg hend, if_neg hend]
      by_cases hroom : line.length + 1 ≤ maxResponseSize
      · rw [ih (hlength.trans_le hroom), and_iff_right hroom]
        rfl
      · refine iff_of_false (fun hall => hroom hall.1) fun hfits => ?_
        have hsmall : maxResponseSize = 10240 := rfl
        obtain hle | hone := HeaderFits.length_le stream hfits
        · omega
        · omega

/-! ## Requests and redirects -/

namespace HttpPost

/-- The responses that `send_request` reads, each with the URL of its request. -/
def served (w : World) : Nat → List (List UInt8) → HttpPost → List (List UInt16 × List UInt8)
  | 0, responses, p => if 0 ≤ p.mLastResponseCode then [] else [(p.mURL, responses.headD [])]
  | maxRelocation + 1, responses, p =>
    if 0 ≤ p.mLastResponseCode then []
    else (p.mURL, responses.headD []) ::
      match receive w (p.sendBody w) (responses.headD []) with
      | some (q, _, some location) =>
        served w maxRelocation responses.tail (q.setURL location)
      | _ => []

def responseWrites (linux : Bool) (w : World) (maxRelocation : Nat)
    (responses : List (List UInt8)) (p : HttpPost) : List Extent :=
  (served w maxRelocation responses p).flatMap fun r => streamWrites linux w r.1 [] r.2

def AllFit (linux : Bool) (w : World) (maxRelocation : Nat) (responses : List (List UInt8))
    (p : HttpPost) : Prop :=
  ∀ r ∈ served w maxRelocation responses p, HeaderFits linux w [] r.2

/-- `send_request` writes inside, and returns an error when a header does not fit. -/
structure ResponseSafe (linux : Bool) (w : World) (maxRelocation : Nat)
    (responses : List (List UInt8)) (p : HttpPost) : Prop where
  inside : ∀ e ∈ responseWrites linux w maxRelocation responses p, e.Inside
  error : ¬ AllFit linux w maxRelocation responses p →
    ∃ r ∈ sendRequest w maxRelocation responses p, r.1 < 0

theorem receive_mURL {p q : HttpPost} {response : List UInt8} {r : Int × Option (List UInt16)}
    (h : receive w p response = some (q, r)) : q.mURL = p.mURL := by
  obtain ⟨lines, -, hq⟩ := Option.map_eq_some_iff.mp h
  obtain ⟨code, hfold⟩ := foldl_handleLine w p 400 lines.1
  dsimp only at hq
  rw [hfold] at hq
  exact (congrArg (fun x => x.1.mURL) hq).symm

theorem slash_setURL {p : HttpPost} (h : 47 ∈ p.mURL) (url : List UInt16) :
    47 ∈ (p.setURL url).mURL := by
  rw [setURL]
  dsimp only
  split
  · rename_i haccepts
    exact List.mem_of_mem_drop haccepts.2
  · exact h

theorem slash_served : ∀ (maxRelocation : Nat) (responses : List (List UInt8)) {p : HttpPost},
    47 ∈ p.mURL → ∀ r ∈ served w maxRelocation responses p, 47 ∈ r.1 := by
  intro maxRelocation
  induction maxRelocation with
  | zero =>
    intro responses p hp
    rw [served]
    split
    · exact fun r hr => absurd hr List.not_mem_nil
    · rwa [List.forall_mem_singleton]
  | succ maxRelocation ih =>
    intro responses p hp
    rw [served]
    split
    · exact fun r hr => absurd hr List.not_mem_nil
    · rw [List.forall_mem_cons]
      refine ⟨hp, ?_⟩
      split
      · rename_i q code location hreceive
        have hq : 47 ∈ q.mURL := by
          rw [receive_mURL hreceive]
          exact hp
        exact ih responses.tail (slash_setURL hq location)
      · exact fun r hr => absurd hr List.not_mem_nil

theorem responseWrites_inside_iff (hw : w.Shrinks) (maxRelocation : Nat)
    (responses : List (List UInt8)) {p : HttpPost} (hp : 47 ∈ p.mURL) :
    (∀ e ∈ responseWrites linux w maxRelocation responses p, e.Inside) ↔
      AllFit linux w maxRelocation responses p := by
  have hslash := slash_served (w := w) maxRelocation responses hp
  rw [responseWrites, AllFit]
  constructor
  · intro h r hr
    refine (streamWrites_inside_iff hw (hslash r hr) r.2 (Nat.zero_le _)).mp fun e he => ?_
    exact h e (List.mem_flatMap.mpr ⟨r, hr, he⟩)
  · intro h e he
    obtain ⟨r, hr, he⟩ := List.mem_flatMap.mp he
    exact (streamWrites_inside_iff hw (hslash r hr) r.2 (Nat.zero_le _)).mpr (h r hr) e he

end HttpPost

/-- **`send_request` is safe** exactly when every header that it reads fits: for one that does
not there is no check. -/
theorem responseSafe_iff (linux : Bool) {w : World} (hw : w.Shrinks) (maxRelocation : Nat)
    (responses : List (List UInt8)) {p : HttpPost} (hp : 47 ∈ p.mURL) :
    HttpPost.ResponseSafe linux w maxRelocation responses p ↔
      HttpPost.AllFit linux w maxRelocation responses p := by
  constructor
  · intro h
    exact (HttpPost.responseWrites_inside_iff hw maxRelocation responses hp).mp h.inside
  · intro h
    exact ⟨(HttpPost.responseWrites_inside_iff hw maxRelocation responses hp).mpr h,
      fun hnot => absurd h hnot⟩

/-- A request for `http://a/`. -/
def requestA : HttpPost := HttpPost.create (wide "http://a/".toList) [] []

theorem responseSafe_iff_short :
    HttpPost.ResponseSafe true sampleWorld 5 [ascii "HTTP/1.1 200 OK\r\n\r\n".toList] requestA ↔
      HttpPost.AllFit true sampleWorld 5 [ascii "HTTP/1.1 200 OK\r\n\r\n".toList] requestA :=
  responseSafe_iff true (fun _ => (List.length_map _).le) 5 _ (by decide)

theorem headerLines_of_not_mem : ∀ (stream : List UInt8) {line : List UInt8}, 10 ∉ stream →
    headerLines line stream = ([], line ++ stream) := by
  intro stream
  induction stream with
  | nil =>
    intro line _
    rw [headerLines, List.append_nil]
  | cons c stream ih =>
    intro line h
    rw [List.mem_cons, not_or] at h
    have hend : ¬ crlf <:+ line ++ [c] := by
      rintro ⟨front, heq⟩
      have hlast : crlf.getLast? = some c := by
        rw [← List.getLast?_append_of_ne_nil front (by decide), heq, List.getLast?_concat]
      exact h.1 (Option.some.inj hlast)
    rw [headerLines, if_neg hend, ih h.2, List.append_assoc]
    rfl

theorem HttpPost.mem_served {p : HttpPost} (hp : p.mLastResponseCode < 0) (maxRelocation : Nat)
    (response : List UInt8) : (p.mURL, response) ∈ served w maxRelocation [response] p := by
  cases maxRelocation with
  | zero =>
    rw [served, if_neg (Int.not_le.mpr hp)]
    exact List.mem_singleton_self _
  | succ maxRelocation =>
    rw [served, if_neg (Int.not_le.mpr hp)]
    exact List.mem_cons_self

/-- A line that does not end within the buffer is written behind it. -/
theorem not_responseSafe_of_long {response : List UInt8} (hend : 10 ∉ response)
    (hlong : maxResponseSize < response.length) (maxRelocation : Nat) (hw : w.Shrinks)
    {p : HttpPost} (hurl : 47 ∈ p.mURL) (hp : p.mLastResponseCode < 0) :
    ¬ HttpPost.ResponseSafe linux w maxRelocation [response] p := by
  intro h
  have hall := (HttpPost.responseWrites_inside_iff hw maxRelocation [response] hurl).mp h.inside
  have hlength := (hall _ (HttpPost.mem_served hp maxRelocation response)).2
  rw [headerLines_of_not_mem _ hend, List.nil_append] at hlength
  exact absurd hlong (Nat.not_lt.mpr hlength)

/-- **A line without an end** of 10241 bytes. -/
theorem endless_line_overruns : ¬ HttpPost.ResponseSafe false sampleWorld 5
    [List.replicate 10241 97] requestA := by
  refine not_responseSafe_of_long ?_ ?_ 5 (fun _ => (List.length_map _).le) (by decide) (by decide)
  · intro hmem
    exact absurd (List.eq_of_mem_replicate hmem) (by decide)
  · rw [List.length_replicate, maxResponseSize]
    exact Nat.lt_succ_self _

end DWindow.Http
