import DWindow.Lib.CInt
import DWindow.Lib.CString

/-!
# HTTP requests with form items

The request half of `httppost.cpp`: the header lines with the announced length, and the
body that `send_request` puts on the socket, item by item.  `send` transmits all it is
given.  A body is a list of `Emit`s, what is sent and where the progress callback is
called; the counter `m_request_content_sent` follows from it.

The conversions of strings, the files and the blocks in which `fread` delivers them are
given as a `World`.  The scratch buffers for one header line and for the whole header are
taken to be large enough, and the connection to be made; `m_port` is left out.
-/

namespace DWindow.Http

open CInt CString

inductive FormItem
  | data (name value : List UInt16)
  | fileData (name : List UInt16) (bytes : List UInt8)
  | fileName (name file : List UInt16)
deriving DecidableEq, Repr

/-- What the functions find outside: `W2UTF8` and `UTF82W`, the files, and the blocks in
which `fread` delivers the file of the item at a place. -/
structure World where
  w2utf8 : List UInt16 → List UInt8
  utf82w : List UInt8 → List UInt16
  file : List UInt16 → Option (List UInt8)
  fread : Nat → List UInt8 → List (List UInt8)

/-- Something goes to the socket and is counted, or the callback is called. -/
inductive Emit
  | send (bytes : List UInt8)
  | callback
deriving DecidableEq, Repr

def crlf : List UInt8 := [13, 10]

def boundary : List UInt8 := ascii "----7b4a6d158c9".toList

def disposition : List UInt8 := ascii "Content-Disposition: form-data; name=\"".toList

/-- `"Content-Disposition: form-data; name=\"%s\"\r\n\r\n"`. -/
def textHeader (name : List UInt8) : List UInt8 :=
  disposition ++ name ++ ascii "\"".toList ++ crlf ++ crlf

/-- `"Content-Disposition: form-data; name=\"%s\"; filename=\"%s\"\r\nContent-Type: …\r\n\r\n"`. -/
def fileHeader (name file : List UInt8) : List UInt8 :=
  disposition ++ name ++ ascii "\"; filename=\"".toList ++ file ++ ascii "\"".toList ++ crlf ++
    ascii "Content-Type: application/octet-stream".toList ++ crlf ++ crlf

/-- The file name of an item that is in memory. -/
def rawData : List UInt8 := ascii "RawData.dat".toList

def calculateItemSize (w : World) : FormItem → Int
  | .data name value =>
    toInt32 ((w.w2utf8 value).length + (textHeader (w.w2utf8 name)).length)
  | .fileData name bytes =>
    toInt32 (bytes.length + (fileHeader (w.w2utf8 name) rawData).length)
  | .fileName name file =>
    match w.file file with
    | none => -1
    | some content =>
      toInt32 (toInt32 content.length + (fileHeader (w.w2utf8 name) (w.w2utf8 file)).length)

def sendMemory (bytes : List UInt8) : List Emit :=
  if bytes = [] then []
  else .send (bytes.take 2048) :: .callback :: sendMemory (bytes.drop 2048)
termination_by bytes.length
decreasing_by
  have : 0 < bytes.length := List.length_pos_iff.mpr ‹_›
  rw [List.length_drop]
  omega

/-- `send_item` of the item at place `i`. -/
def sendItem (w : World) (i : Nat) : FormItem → List Emit
  | .data name value => [.send (textHeader (w.w2utf8 name)), .send (w.w2utf8 value), .callback]
  | .fileData name bytes => .send (fileHeader (w.w2utf8 name) rawData) :: sendMemory bytes
  | .fileName name file =>
    match w.file file with
    | none => []
    | some content =>
      .send (fileHeader (w.w2utf8 name) (w.w2utf8 file)) ::
        (w.fread i content).flatMap fun block => [.send block, .callback]

def openLine : List UInt8 := ascii "--".toList ++ boundary ++ crlf

def closeLine : List UInt8 := ascii "--".toList ++ boundary ++ ascii "--".toList ++ crlf

/-- The loop of `send_request` over the items, from place `i`. -/
def sendItems (w : World) : Nat → List FormItem → List Emit
  | _, [] => []
  | i, item :: items =>
    .send openLine :: sendItem w i item ++ [.send crlf, .send closeLine, .callback] ++
      sendItems w (i + 1) items

/-- The loop of `send_request` that adds up the size. -/
def requestContentSize (w : World) (items : List FormItem) : Int :=
  items.foldl (fun size item =>
    toInt32 (toInt32 (toInt32 (size + (boundary.length + 4)) + calculateItemSize w item) +
      (boundary.length + 8))) 0

def bytesOf (emits : List Emit) : List UInt8 :=
  emits.flatMap fun
    | .send bytes => bytes
    | .callback => []

/-- `m_request_content_sent` after one of them. -/
def count (sent : Int) : Emit → Int
  | .send bytes => toInt32 (sent + bytes.length)
  | .callback => sent

/-- `m_request_content_sent` after all of them. -/
def sentAfter (sent : Int) (emits : List Emit) : Int := emits.foldl count sent

/-- The arguments of the calls of the callback. -/
def progress (size : Int) : Int → List Emit → List (Int × Int)
  | _, [] => []
  | sent, .send bytes :: emits => progress size (count sent (.send bytes)) emits
  | sent, .callback :: emits => (sent, size) :: progress size sent emits

/-- `httppost`: of the socket what is still to come from it. -/
structure HttpPost where
  mServer : List UInt16
  mObject : List UInt16
  mURL : List UInt16
  mFormItems : List FormItem
  mRequestHeaders : List (List UInt16 × List UInt16)
  mHeaders : List (List UInt16 × List UInt16)
  mContentLength : Int
  mContentRead : Int
  mRequestContentSent : Int
  mRequestContentSize : Int
  mLastResponseCode : Int
  mSock : List UInt8
deriving DecidableEq, Repr

/-- A URL that `setURL` takes: seven characters and a slash behind them. -/
def Accepts (url : List UInt16) : Prop := 7 ≤ url.length ∧ 47 ∈ url.drop 7

instance (url : List UInt16) : Decidable (Accepts url) := inferInstanceAs (Decidable (_ ∧ _))

namespace HttpPost

def setURL (p : HttpPost) (url : List UInt16) : HttpPost :=
  let p := { p with mLastResponseCode := -1, mSock := [] }
  if Accepts url then
    { p with mHeaders := []
             mURL := url
             mObject := (url.drop 7).dropWhile (· ≠ 47)
             mServer := ((url.drop 7).takeWhile (· ≠ 47)).takeWhile (· ≠ 58) }
  else p

/-- A fresh `httppost`, with its items and request headers. -/
def create (url : List UInt16) (items : List FormItem)
    (requestHeaders : List (List UInt16 × List UInt16)) : HttpPost :=
  { setURL ⟨[], [], [], [], [], [], 0, 0, 0, 0, -1, []⟩ url with
    mFormItems := items, mRequestHeaders := requestHeaders }

/-- The lines of the request header but that of the length. -/
def fixedLines (w : World) (p : HttpPost) : List (List UInt8) :=
  [ascii (if p.mFormItems.length > 0 then "POST " else "GET ").toList ++ w.w2utf8 p.mObject ++
      ascii " HTTP/1.1".toList,
    ascii "HOST: ".toList ++ w.w2utf8 p.mServer,
    ascii "Accept: */*".toList,
    ascii "Content-Type: multipart/form-data; charset=UTF-8; boundary=".toList ++ boundary,
    ascii "Accept-Encoding: deflate".toList,
    ascii "User-Agent: Mozilla/4.0 (compatible; windows 5.1)".toList,
    ascii "Connection: Keep-Alive".toList,
    ascii "Cache-Control: no-cache".toList] ++
  p.mRequestHeaders.map fun h => w.w2utf8 h.1 ++ ascii ": ".toList ++ w.w2utf8 h.2

def requestLines (w : World) (p : HttpPost) : List (List UInt8) :=
  p.fixedLines w ++
    if requestContentSize w p.mFormItems > 0 then
      [ascii "Content-Length: ".toList ++ decimal (requestContentSize w p.mFormItems).toNat]
    else []

def requestHeader (w : World) (p : HttpPost) : List UInt8 :=
  (p.requestLines w).flatMap (fun line => line ++ crlf) ++ crlf

def body (w : World) (p : HttpPost) : List Emit := sendItems w 0 p.mFormItems

def sendBody (w : World) (p : HttpPost) : HttpPost :=
  { p with mRequestContentSize := requestContentSize w p.mFormItems
           mRequestContentSent := sentAfter p.mRequestContentSent (p.body w) }

end HttpPost

/-! ## Counting -/

@[simp] theorem bytesOf_nil : bytesOf [] = [] := rfl

@[simp] theorem bytesOf_append (a b : List Emit) : bytesOf (a ++ b) = bytesOf a ++ bytesOf b :=
  List.flatMap_append

@[simp] theorem bytesOf_send (bytes : List UInt8) (emits : List Emit) :
    bytesOf (.send bytes :: emits) = bytes ++ bytesOf emits := rfl

@[simp] theorem bytesOf_callback (emits : List Emit) :
    bytesOf (.callback :: emits) = bytesOf emits := rfl

theorem sentAfter_append (sent : Int) (a b : List Emit) :
    sentAfter sent (a ++ b) = sentAfter (sentAfter sent a) b := List.foldl_append

/-- **The counter counts the bytes sent**, modulo the range of an `int`. -/
theorem sentAfter_eq : ∀ (emits : List Emit) (sent : Int), toInt32 sent = sent →
    sentAfter sent emits = toInt32 (sent + (bytesOf emits).length) := by
  intro emits
  induction emits with
  | nil =>
    intro sent hsent
    show sent = toInt32 (sent + 0)
    rw [Int.add_zero, hsent]
  | cons e emits ih =>
    intro sent hsent
    cases e with
    | send bytes =>
      have hwrap : toInt32 (toInt32 (sent + bytes.length)) = toInt32 (sent + bytes.length) :=
        Int.bmod_bmod
      show sentAfter (toInt32 (sent + bytes.length)) emits = _
      rw [ih _ hwrap, bytesOf_send, List.length_append, Int.natCast_add, ← Int.add_assoc]
      exact Int.bmod_add_bmod ..
    | callback => exact ih sent hsent

theorem progress_append (size : Int) : ∀ (a b : List Emit) (sent : Int),
    progress size sent (a ++ b) = progress size sent a ++ progress size (sentAfter sent a) b := by
  intro a
  induction a with
  | nil =>
    intro b sent
    rfl
  | cons e a ih =>
    intro b sent
    cases e with
    | send bytes => exact ih b _
    | callback => exact congrArg (_ :: ·) (ih b sent)

end DWindow.Http
