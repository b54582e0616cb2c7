import DWindow.Http.Framing
import DWindow.Lib.Decimal
import DWindow.Lib.WString

/-!
# Responses and redirects

The response half of `send_request`: the header lines are read from the connection byte by
byte, the headers go into the object as they come, and a `Location` makes `send_request`
set the new URL and call itself.  Every connection delivers a stream of bytes that ends;
the streams of the connections of a run are given as a list.

A line that does not fit into `response` has no result.
-/

namespace DWindow.Http

open CInt CString WString Decimal

def maxResponseSize : Nat := 10240

/-- The loop that reads the header: the lines, and what is still to come behind the blank
one.  `line` is what has come of the line being read. -/
def readHeader (line : List UInt8) : List UInt8 → Option (List (List UInt8) × List UInt8)
  | [] => some ([], [])
  | c :: stream =>
    if maxResponseSize ≤ line.length then none
    else if crlf <:+ line ++ [c] then
      -- `response[got] = NULL`
      if maxResponseSize ≤ line.length + 1 then none
      else if line.length + 1 = 2 then some ([], stream)
      else (readHeader [] stream).map fun r => ((line ++ [c]) :: r.1, r.2)
    else readHeader (line ++ [c]) stream

def atoi (str : List UInt8) : Int :=
  ((scanInt (str.map UInt8.toUInt16)).map fun r => toInt32 r.1).getD 0

/-- What `send_request` finds in a line. -/
inductive HeaderLine
  | status (code : Option Int)
  | header (name value : List UInt16)
  | other
deriving DecidableEq, Repr

def parseLine (w : World) (line : List UInt8) : HeaderLine :=
  let text := line.takeWhile (· ≠ 0)
  if ascii "HTTP".toList <+: text then
    match text.dropWhile (· ≠ 32) with
    | [] => .status none
    | _ :: code => .status (some (atoi code))
  else
    match (w.utf82w text).dropWhile (· ≠ 58) with
    | [] => .other
    | _ :: value =>
      .header ((w.utf82w text).takeWhile (· ≠ 58)) (wcstrim 10 (wcstrim 13 (wcstrim 32 value)))

/-- `swscanf(value, L"%lld", …)`. -/
def scanLength (value : List UInt16) : Option Int := (scanInt value).map fun r => toInt64 r.1

/-- The URL of a `Location`: an absolute one, or one that replaces what is behind the last
slash of `m_URL`. -/
def resolve (mURL value : List UInt16) : List UInt16 :=
  wcstrim 10 (wcstrim 13 (if wide "http://".toList <+: value then value
    else mURL.rdropWhile (· ≠ 47) ++ value))

namespace HttpPost

/-- What one line does to the object, the response code and the location. -/
def handleLine (w : World) (s : HttpPost × Int × Option (List UInt16)) (line : List UInt8) :
    HttpPost × Int × Option (List UInt16) :=
  match parseLine w line with
  | .status code => (s.1, code.getD s.2.1, s.2.2)
  | .other => s
  | .header name value =>
    ({ s.1 with
        mHeaders := s.1.mHeaders ++ [(name, value)]
        mContentLength := if name = wide "Content-Length".toList then
            (scanLength value).getD s.1.mContentLength else s.1.mContentLength },
      s.2.1,
      if name = wide "Location".toList then some (resolve s.1.mURL value) else s.2.2)

/-- The response on a connection: the object, the response code and the location. -/
def receive (w : World) (p : HttpPost) (response : List UInt8) :
    Option (HttpPost × Int × Option (List UInt16)) :=
  (readHeader [] response).map fun r =>
    let s := r.1.foldl (handleLine w) (p, 400, none)
    ({ s.1 with mSock := r.2 }, s.2)

/-- The end of `send_request`. -/
def finish (s : HttpPost × Int × Option (List UInt16)) : Int × HttpPost :=
  (s.2.1, { s.1 with mLastResponseCode := s.2.1 })

/-- `send_request`, over the streams of the connections it will make: the response code and
the object. -/
def sendRequest (w : World) : Nat → List (List UInt8) → HttpPost → Option (Int × HttpPost)
  | 0, responses, p =>
    if 0 ≤ p.mLastResponseCode then some (p.mLastResponseCode, p)
    else (receive w (p.sendBody w) (responses.headD [])).map finish
  | maxRelocation + 1, responses, p =>
    if 0 ≤ p.mLastResponseCode then some (p.mLastResponseCode, p)
    else
      (receive w (p.sendBody w) (responses.headD [])).bind fun s =>
        match s.2.2 with
        | some location => sendRequest w maxRelocation responses.tail (s.1.setURL location)
        | none => some (finish s)

/-- `read_content`: the bytes, and the object. -/
def readContent (p : HttpPost) (size : Int) : List UInt8 × HttpPost :=
  let size := if p.mContentLength > 0 then min size (p.mContentLength - p.mContentRead) else size
  if size ≤ 0 then ([], p)
  else
    let got := p.mSock.take size.toNat
    (got, { p with mSock := p.mSock.drop size.toNat, mContentRead := p.mContentRead + got.length })

/-- What calls of `read_content` of some sizes deliver. -/
def reads (p : HttpPost) : List Int → List (List UInt8)
  | [] => []
  | size :: sizes => (p.readContent size).1 :: reads (p.readContent size).2 sizes

end HttpPost

/-! ## What a response holds -/

def headersOf (w : World) (lines : List (List UInt8)) : List (List UInt16 × List UInt16) :=
  lines.filterMap fun line =>
    match parseLine w line with
    | .header name value => some (name, value)
    | _ => none

/-- The length the last readable `Content-Length` announces. -/
def lengthOf (headers : List (List UInt16 × List UInt16)) : Option Int :=
  headers.foldl (fun n h =>
    if h.1 = wide "Content-Length".toList then (scanLength h.2).or n else n) none

/-- The last `Location`. -/
def locationOf (headers : List (List UInt16 × List UInt16)) : Option (List UInt16) :=
  headers.foldl (fun n h => if h.1 = wide "Location".toList then some h.2 else n) none

theorem headersOf_concat (w : World) (lines : List (List UInt8)) (line : List UInt8) :
    headersOf w (lines ++ [line]) = headersOf w lines ++
      (match parseLine w line with
        | .header name value => [(name, value)]
        | _ => []) := by
  rw [headersOf, List.filterMap_append]
  refine congrArg (headersOf w lines ++ ·) ?_
  rw [List.filterMap_cons, List.filterMap_nil]
  cases parseLine w line with
  | status code => rfl
  | header name value => rfl
  | other => rfl

theorem lengthOf_concat (headers : List (List UInt16 × List UInt16)) (name value : List UInt16) :
    lengthOf (headers ++ [(name, value)]) = if name = wide "Content-Length".toList then
      (scanLength value).or (lengthOf headers) else lengthOf headers := by
  rw [lengthOf, List.foldl_append]
  rfl

theorem locationOf_concat (headers : List (List UInt16 × List UInt16)) (name value : List UInt16) :
    locationOf (headers ++ [(name, value)]) =
      if name = wide "Location".toList then some value else locationOf headers := by
  rw [locationOf, List.foldl_append]
  rfl

/-- **What the lines do**, all together. -/
theorem foldl_handleLine (w : World) (p : HttpPost) (code : Int) : ∀ (lines : List (List UInt8)),
    ∃ code', lines.foldl (HttpPost.handleLine w) (p, code, none) =
      ({ p with mHeaders := p.mHeaders ++ headersOf w lines
                mContentLength := (lengthOf (headersOf w lines)).getD p.mContentLength },
        code', (locationOf (headersOf w lines)).map (resolve p.mURL)) := by
  intro lines
  induction lines using List.reverseRecOn with
  | nil => exact ⟨code, by rw [headersOf, List.filterMap_nil, List.append_nil]; rfl⟩
  | append_singleton lines line ih =>
    obtain ⟨code', hfold⟩ := ih
    rw [List.foldl_append, hfold, List.foldl_cons, List.foldl_nil, HttpPost.handleLine,
      headersOf_concat]
    cases parseLine w line with
    | status c =>
      rw [List.append_nil]
      exact ⟨_, rfl⟩
    | other =>
      rw [List.append_nil]
      exact ⟨_, rfl⟩
    | header name value =>
      refine ⟨code', ?_⟩
      rw [lengthOf_concat, locationOf_concat, ← List.append_assoc]
      refine Prod.ext ?_ (Prod.ext rfl ?_)
      · dsimp only
        split
        · cases scanLength value with
          | none => rfl
          | some n => rfl
        · rfl
      · dsimp only
        split
        · rfl
        · rfl

end DWindow.Http
