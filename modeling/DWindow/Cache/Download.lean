import DWindow.Cache.Workers
import DWindow.Http.Answer

/-!
# What a worker downloads

`inet_worker::run` asks for the file from `m_pos` on, takes any response code from 200 to 299
for a success, and feeds what comes to the cache, block by block, as the bytes from `m_pos`
on.  It does not look at whether the server has answered with a part of the file or the whole
of it, and `httppost` does not undo codings.  `caches_iff` says which answers it feeds
rightly.

Other threads and the clock decide how the waits of `run` end; a round of the loop gets what
they have decided.  A connection that breaks is one that ends.
-/

namespace DWindow.Http.HttpPost

/-- The loop of `read_content`: `sizes` are what the calls of `recv` return, as far as so
much is there and asked for. -/
def recvLoop : List Nat → Nat → List UInt8 → List UInt8 × List UInt8
  | [], want, stream => (stream.take want, stream.drop want)
  | size :: sizes, want, stream =>
    let o := min (max 1 size) want
    let r := recvLoop sizes (want - o) (stream.drop o)
    (stream.take o ++ r.1, r.2)

/-- `read_content`, as `recv` delivers. -/
def readContentIn (p : HttpPost) (size : Int) (sizes : List Nat) : List UInt8 × HttpPost :=
  let size := if p.mContentLength > 0 then min size (p.mContentLength - p.mContentRead) else size
  if size ≤ 0 then ([], p)
  else
    let r := recvLoop sizes size.toNat p.mSock
    (r.1, { p with mSock := r.2, mContentRead := p.mContentRead + r.1.length })

theorem recvLoop_eq : ∀ (sizes : List Nat) (want : Nat) (stream : List UInt8),
    recvLoop sizes want stream = (stream.take want, stream.drop want) := by
  intro sizes
  induction sizes with
  | nil => intro want stream; rfl
  | cons size sizes ih =>
    intro want stream
    have hwant : min (max 1 size) want + (want - min (max 1 size) want) = want := by omega
    rw [recvLoop, ih, List.drop_drop, ← List.take_add, hwant]

/-- The sizes in which `recv` delivers make no difference. -/
theorem readContentIn_eq (p : HttpPost) (size : Int) (sizes : List Nat) :
    p.readContentIn size sizes = p.readContent size := by
  rw [readContentIn, readContent]
  simp only [recvLoop_eq]

end DWindow.Http.HttpPost

namespace DWindow.Cache

open CInt CString WString Http

/-- A call of `inet_file::feed`: the range, and its bytes in the buffer. -/
structure FedBlock where
  frag : Fragment
  block : List UInt8
deriving DecidableEq, Repr

/-- The call carries the bytes of its range of the file. -/
def FedBlock.Carries (file : List UInt8) (c : FedBlock) : Prop :=
  ∃ p : Nat, c.frag = ⟨p, p + c.block.length⟩ ∧ c.block <+: file.drop p

/-- What is decided outside in a round of the loop: `m_maxpos` and whether the time is over
when the wait for a hint ends, what the calls of `recv` return, `m_exit_signaled` behind
them, and what `feed` returns. -/
structure WorkerRound where
  maxpos : Int
  timedOut : Bool
  received : List Nat
  exitSignaled : Bool
  fed : Int
deriving DecidableEq, Repr

namespace InetWorker

/-- The loop of `run`: the calls of `feed`. -/
def runLoop : HttpPost → Nat → List WorkerRound → List FedBlock
  | _, _, [] => []
  | post, pos, r :: rounds =>
    if r.maxpos ≤ pos ∧ r.timedOut then []
    else
      let (block, post) := post.readContentIn BLOCK_SIZE r.received
      if block = [] ∨ r.exitSignaled then []
      else
        ⟨⟨pos, pos + block.length⟩, block⟩ ::
          if r.fed ≠ 0 then [] else runLoop post (pos + block.length) rounds

/-- The object with the `Range` line. -/
def prepare (w : World) (post : HttpPost) (pos : Nat) : HttpPost :=
  if pos > 0 then
    post.addHeader (wide "Range".toList) (w.utf82w ((rangeText pos).map UInt16.toUInt8))
  else post

/-- `inet_worker::run`, over the streams of the connections it will make: the calls of
`feed`. -/
def run (w : World) (responses : List (List UInt8)) (post : HttpPost) (pos : Nat)
    (rounds : List WorkerRound) : Option (List FedBlock) :=
  ((prepare w post pos).sendRequest w 5 responses).map fun r =>
    if r.1 < 200 ∨ r.1 > 299 then [] else runLoop r.2 pos rounds

theorem sendRequest_of_sent {w : World} : ∀ (n : Nat) {responses : List (List UInt8)}
    {p q : HttpPost} {code : Int}, p.sendRequest w n responses = some (code, q) → 0 ≤ code →
    ∀ (m : Nat) (others : List (List UInt8)), q.sendRequest w m others = some (code, q) := by
  have hagain : ∀ {q : HttpPost} {code : Int}, q.mLastResponseCode = code → 0 ≤ code →
      ∀ (m : Nat) (others : List (List UInt8)), q.sendRequest w m others = some (code, q) := by
    rintro q code rfl hcode m others
    cases m with
    | zero => exact if_pos hcode
    | succ m => exact if_pos hcode
  intro n
  induction n with
  | zero =>
    intro responses p q code h hcode
    rw [HttpPost.sendRequest] at h
    split at h
    · cases h
      exact hagain rfl hcode
    · obtain ⟨s, -, hs⟩ := Option.map_eq_some_iff.mp h
      cases hs
      exact hagain rfl hcode
  | succ n ih =>
    intro responses p q code h hcode
    rw [HttpPost.sendRequest] at h
    split at h
    · cases h
      exact hagain rfl hcode
    · obtain ⟨s, -, hs⟩ := Option.bind_eq_some_iff.mp h
      split at hs
      · exact ih hs hcode
      · cases hs
        exact hagain rfl hcode

/-- **A worker that gets the object of `setURL`**, whose request has been sent, feeds what one
from the beginning of the file would. -/
theorem run_of_sent {w : World} {responses : List (List UInt8)} {p q : HttpPost} {code : Int}
    (h : p.sendRequest w 5 responses = some (code, q)) (hcode : 0 ≤ code)
    (others : List (List UInt8)) (rounds : List WorkerRound) :
    run w others q 0 rounds = run w responses p 0 rounds := by
  rw [run, run, prepare, prepare, if_neg (Nat.lt_irrefl 0), if_neg (Nat.lt_irrefl 0), h,
    sendRequest_of_sent 5 h hcode]

end InetWorker

open InetWorker

/-! ## The loop -/

/-- What a block takes from the connection, and what it leaves. -/
theorem readContent_split (p : HttpPost) (size : Int) :
    ∃ k : Nat, (p.readContent size).1 = p.mSock.take k ∧
      (p.readContent size).2.mSock = p.mSock.drop k := by
  rw [HttpPost.readContent]
  generalize (if p.mContentLength > 0 then min size (p.mContentLength - p.mContentRead)
    else size) = want
  dsimp only
  by_cases hwant : want ≤ 0
  · rw [if_pos hwant]
    exact ⟨0, rfl, rfl⟩
  · rw [if_neg hwant]
    exact ⟨_, rfl, rfl⟩

/-- **The loop feeds the stream in order**: what stands on the connection goes to the range
that the worker is at. -/
theorem carries_of_mem_runLoop : ∀ (rounds : List WorkerRound) (post : HttpPost) (pos : Nat)
    {file : List UInt8}, post.mSock <+: file.drop pos → ∀ c ∈ runLoop post pos rounds,
      c.Carries file := by
  intro rounds
  induction rounds with
  | nil => intro post pos file _ c hc; cases hc
  | cons r rounds ih =>
    intro post pos file hsock c hc
    rw [runLoop, HttpPost.readContentIn_eq] at hc
    obtain ⟨k, hblock, hrest⟩ := readContent_split post BLOCK_SIZE
    dsimp only at hc
    split at hc
    · cases hc
    split at hc
    · cases hc
    rw [hblock] at hc
    have hdrop : post.mSock.drop k <+: file.drop (pos + (post.mSock.take k).length) := by
      obtain ⟨t, ht⟩ := hsock
      refine ⟨t, ?_⟩
      calc post.mSock.drop k ++ t
          = (post.mSock.take k ++ (post.mSock.drop k ++ t)).drop (post.mSock.take k).length :=
            List.drop_left.symm
        _ = (file.drop pos).drop (post.mSock.take k).length := by
            rw [← List.append_assoc, List.take_append_drop, ht]
        _ = file.drop (pos + (post.mSock.take k).length) := List.drop_drop
    rcases List.mem_cons.mp hc with rfl | hc
    · exact ⟨pos, rfl, (List.take_prefix k _).trans hsock⟩
    · split at hc
      · cases hc
      · exact ih _ _ (hrest ▸ hdrop) c hc

/-- The first round comes to a block if there is one. -/
def Reads (pos : Nat) (rounds : List WorkerRound) : Prop :=
  ∃ r ∈ rounds.head?, ¬(r.maxpos ≤ pos ∧ r.timedOut = true) ∧ r.exitSignaled = false

theorem runLoop_of_not_reads {post : HttpPost} {pos : Nat} {rounds : List WorkerRound}
    (h : post.mSock = [] ∨ ¬Reads pos rounds) : runLoop post pos rounds = [] := by
  cases rounds with
  | nil => rfl
  | cons r rounds =>
    rw [runLoop, HttpPost.readContentIn_eq]
    obtain ⟨k, hblock, -⟩ := readContent_split post BLOCK_SIZE
    by_cases hwait : r.maxpos ≤ pos ∧ r.timedOut = true
    · rw [if_pos hwait]
    · rw [if_neg hwait]
      dsimp only
      rw [if_pos]
      rcases h with hnil | hreads
      · left
        rw [hblock, hnil, List.take_nil]
      · right
        by_contra hexit
        exact hreads ⟨r, rfl, hwait, Bool.eq_false_iff.mpr hexit⟩

/-- A worker that comes to a block feeds it as the bytes from its position on. -/
theorem runLoop_of_reads {post : HttpPost} {pos : Nat} {rounds : List WorkerRound} {b : UInt8}
    {stream : List UInt8} (hsock : post.mSock = b :: stream) (hread : post.mContentRead = 0)
    (h : Reads pos rounds) : ∃ block calls,
      runLoop post pos rounds = ⟨⟨pos, pos + (b :: block).length⟩, b :: block⟩ :: calls := by
  obtain ⟨r, hr, hwait, hexit⟩ := h
  obtain ⟨rounds, rfl⟩ : ∃ l, rounds = r :: l := by
    cases rounds with
    | nil => cases hr
    | cons r' l => exact ⟨l, by rw [Option.some.inj hr]⟩
  obtain ⟨block, hblock⟩ : ∃ block, (post.readContent BLOCK_SIZE).1 = b :: block := by
    have hblockSize : (0 : Int) < BLOCK_SIZE := by decide
    obtain ⟨n, hn⟩ : ∃ n : Nat, (if post.mContentLength > 0 then
        min BLOCK_SIZE (post.mContentLength - post.mContentRead) else BLOCK_SIZE) = n + 1 := by
      rw [hread]
      split
      · exact ⟨(min BLOCK_SIZE (post.mContentLength - 0)).toNat - 1, by omega⟩
      · exact ⟨(BLOCK_SIZE).toNat - 1, by omega⟩
    rw [HttpPost.readContent, hn, hsock]
    dsimp only
    rw [if_neg (by omega)]
    exact ⟨stream.take n, rfl⟩
  rw [runLoop, HttpPost.readContentIn_eq, if_neg hwait]
  dsimp only
  rw [hblock, if_neg (by simp [hexit])]
  exact ⟨block, _, rfl⟩

/-- A call that carries its bytes begins with that of its position. -/
theorem FedBlock.Carries.getElem? {file : List UInt8} {pos : Nat} {b : UInt8}
    {block : List UInt8}
    (h : FedBlock.Carries file ⟨⟨pos, pos + (b :: block).length⟩, b :: block⟩) :
    file[pos]? = some b := by
  obtain ⟨p, hp, hprefix⟩ := h
  obtain rfl : pos = p := by
    have := congrArg Fragment.start hp
    exact Int.ofNat_inj.mp this
  obtain ⟨t, ht⟩ := hprefix
  rw [← Nat.add_zero pos, ← List.getElem?_drop, ← ht]
  rfl

/-! ## The request -/

variable {w : World} {url : List UInt16} {pos : Nat} {redirects : List (List UInt8)}
  {answer : Answer} {rounds : List WorkerRound} {n : Nat} {file : List UInt8}

/-- The lines of the request that no redirect follows. -/
def asked (w : World) (url : List UInt16) (pos : Nat) (redirects : List (List UInt8)) :
    List (List UInt8) :=
  (redirects.foldl (HttpPost.hop w) (prepare w (HttpPost.create url [] []) pos)).requestLines w

/-- What a worker feeds that starts at `pos`, when the server redirects it and then answers
with the file. -/
def cached (w : World) (url : List UInt16) (pos : Nat) (redirects : List (List UInt8))
    (answer : Answer) (rounds : List WorkerRound) (file : List UInt8) : Option (List FedBlock) :=
  run w (redirects ++ [answer.stream (asked w url pos redirects) file]) (HttpPost.create url [] [])
    pos rounds

/-- The worker caches the right bytes of every file of this size, and nothing of an answer
that begins elsewhere. -/
def Caches (w : World) (url : List UInt16) (pos : Nat) (redirects : List (List UInt8))
    (answer : Answer) (rounds : List WorkerRound) (n : Nat) : Prop :=
  ∀ file : List UInt8, file.length = n →
    ∃ calls ∈ cached w url pos redirects answer rounds file, (∀ c ∈ calls, c.Carries file) ∧
      (answer.start (asked w url pos redirects) ≠ pos → calls = [])

/-- The header lines that are read fit the buffer. -/
def Fits (w : World) (redirects : List (List UInt8)) (answer : Answer) : Prop :=
  (∀ r ∈ redirects.take 6, responseHeaders w r ≠ none) ∧
    (redirects.length ≤ 5 → ∀ line ∈ answer.lines, line.length + 2 < maxResponseSize)

/-- The worker takes the response for a success. -/
def Accepted (w : World) (lines : List (List UInt8)) : Prop :=
  200 ≤ codeOf w lines ∧ codeOf w lines ≤ 299

/-- Something is fed: the first round comes to a block, and the response that is not followed
further is taken for a success and has a body. -/
def Feeds (w : World) (url : List UInt16) (pos : Nat) (redirects : List (List UInt8))
    (answer : Answer) (rounds : List WorkerRound) (n : Nat) : Prop :=
  Reads pos rounds ∧
    match redirects[5]? with
    | some r => ∃ x ∈ readHeader [] r, Accepted w x.1 ∧ x.2 ≠ []
    | none => Accepted w (answer.lines.map (· ++ crlf)) ∧ 0 < answer.delivered ∧
        (answer.coding = none → answer.start (asked w url pos redirects) < n)

/-- The answer begins where the worker is, without a coding, and is the response that the
worker ends with. -/
def Begins (pos : Nat) (redirects : List (List UInt8)) (answer : Answer) : Prop :=
  redirects.length ≤ 5 ∧ answer.coding = none ∧ (answer.partialContent = true ∨ pos = 0)

/-- The lines of the response that is not followed further, and an object that is behind its
header. -/
def Behind (w : World) (url : List UInt16) (pos : Nat) (redirects : List (List UInt8))
    (answer : Answer) (file : List UInt8) (lines : List (List UInt8)) (post : HttpPost) : Prop :=
  post.mContentRead = 0 ∧
    match redirects[5]? with
    | some r => readHeader [] r = some (lines, post.mSock)
    | none => lines = answer.lines.map (· ++ crlf) ∧
        post.mSock = answer.body (asked w url pos redirects) file

/-- What `run` feeds from there on. -/
def fedBehind (w : World) (pos : Nat) (rounds : List WorkerRound) (lines : List (List UInt8))
    (post : HttpPost) : List FedBlock :=
  if codeOf w lines < 200 ∨ codeOf w lines > 299 then [] else runLoop post pos rounds

theorem prepare_fields (w : World) (url : List UInt16) (pos : Nat) :
    let p := prepare w (HttpPost.create url [] []) pos
    p.mFormItems = [] ∧ p.mLastResponseCode = -1 ∧ p.mContentRead = 0 ∧
      p.mRequestContentSent = 0 := by
  obtain ⟨hitems, -, -, hread, hsent, hcode⟩ := create_fields url [] []
  rw [prepare]
  split
  · exact ⟨hitems, hcode, hread, hsent⟩
  · exact ⟨hitems, hcode, hread, hsent⟩

theorem prepare_mRequestHeaders (hw : w.Converts) (url : List UInt16) (pos : Nat) :
    (prepare w (HttpPost.create url [] []) pos).mRequestHeaders =
      if pos > 0 then [(wide "Range".toList, rangeText pos)] else [] := by
  rw [prepare]
  split
  · rw [(hw _ (rangeText_ascii pos)).2]
    rfl
  · rfl

/-- **A part begins where the worker is.** -/
theorem start_eq (hw : w.Converts) : answer.start (asked w url pos redirects) =
    if answer.partialContent then pos else 0 := by
  rw [Answer.start]
  by_cases hpartial : answer.partialContent = true
  · rw [if_pos hpartial, if_pos hpartial, asked]
    obtain ⟨hheaders, hitems⟩ :=
      foldl_hop_request w redirects (prepare w (HttpPost.create url [] []) pos)
    rw [prepare_mRequestHeaders hw] at hheaders
    by_cases hpos : pos > 0
    · rw [if_pos hpos] at hheaders
      rw [rangeStart_requestLines hw hheaders]
      rfl
    · rw [if_neg hpos] at hheaders
      rw [rangeStart_of_nil (hitems.trans (prepare_fields w url pos).1) hheaders]
      exact (Nat.eq_zero_of_not_pos hpos).symm
  · rw [if_neg hpartial, if_neg hpartial]

/-- **A request with some redirects to follow** has a result if all headers fit, and then the
loop begins behind the header of the last response. -/
theorem run_redirects {front : List (List UInt8)} {r : List UInt8} (rs : List (List UInt8))
    (hfront : front.length ≤ 5) (hredirects : ∀ x ∈ front, Redirects w x)
    (hr : IsFinal w r ∨ 5 - front.length = 0) :
    ((∃ x ∈ front, responseHeaders w x = none) ∨ readHeader [] r = none →
      run w (front ++ r :: rs) (HttpPost.create url [] []) pos rounds = none) ∧
    ∀ lines rest, (∀ x ∈ front, responseHeaders w x ≠ none) →
      readHeader [] r = some (lines, rest) → ∃ post : HttpPost, post.mSock = rest ∧
        post.mContentRead = 0 ∧
        run w (front ++ r :: rs) (HttpPost.create url [] []) pos rounds =
          some (fedBehind w pos rounds lines post) := by
  obtain ⟨-, hcode, hread, hsent⟩ := prepare_fields w url pos
  have hneg : (prepare w (HttpPost.create url [] []) pos).mLastResponseCode < 0 := by
    rw [hcode]
    decide
  obtain ⟨hfit, hlong⟩ := sendRequest_chain (r :: rs) front _ 5 hneg hfront hredirects
  have hhops := fun hfits => foldl_hop hneg (by rw [hsent]; rfl) front hredirects hfits
  constructor
  · intro h
    rw [run]
    by_cases hall : ∀ x ∈ front, responseHeaders w x ≠ none
    · have hnone : readHeader [] r = none := h.resolve_left fun ⟨x, hx, hx'⟩ => hall x hx hx'
      rw [hfit hall, (sendRequest_last (hhops hall).code hr rs).1 hnone]
      rfl
    · push Not at hall
      rw [hlong hall]
      rfl
  · intro lines rest hall hheader
    obtain ⟨q, hq, hsock, hq0⟩ := (sendRequest_last (hhops hall).code hr rs).2 lines rest hheader
    refine ⟨q, hsock, ?_, ?_⟩
    · rw [hq0, (hhops hall).read, hread]
    · rw [run, hfit hall, hq]
      rfl

/-- **What the worker feeds**, with the response that is not followed further. -/
theorem cached_eq (hredirects : ∀ r ∈ redirects, Redirects w r)
    (hfinal : locationOf (headersOf w (answer.lines.map (· ++ crlf))) = none)
    (rounds : List WorkerRound) (file : List UInt8) :
    (¬Fits w redirects answer → cached w url pos redirects answer rounds file = none) ∧
    (Fits w redirects answer → ∃ lines post, Behind w url pos redirects answer file lines post ∧
      cached w url pos redirects answer rounds file =
        some (fedBehind w pos rounds lines post)) := by
  have hanswer := readHeader_lines answer.lines (answer.body (asked w url pos redirects) file)
    fun line hline => answer.oneLine_notBlank hline
  simp only [cached, Fits, Behind]
  cases hsixth : redirects[5]? with
  | none =>
    have hshort : redirects.length ≤ 5 := List.getElem?_eq_none_iff.mp hsixth
    have hfinal' : IsFinal w (answer.stream (asked w url pos redirects) file) := by
      intro headers hheaders
      rw [responseHeaders, Answer.stream, hanswer] at hheaders
      split at hheaders
      · obtain rfl := Option.some.inj hheaders
        exact hfinal
      · cases hheaders
    obtain ⟨hnone, hsome⟩ := @run_redirects w url pos rounds redirects _ [] hshort hredirects
      (.inl hfinal')
    rw [List.take_of_length_le (Nat.le_succ_of_le hshort)]
    rw [Answer.stream, hanswer] at hnone hsome
    constructor
    · intro hfits
      refine hnone ?_
      by_cases hlines : ∀ line ∈ answer.lines, line.length + 2 < maxResponseSize
      · left
        by_contra hall
        push Not at hall
        exact hfits ⟨hall, fun _ => hlines⟩
      · exact .inr (if_neg hlines)
    · rintro ⟨hall, hlines⟩
      obtain ⟨post, hsock, hread, hrun⟩ := hsome _ _ hall (if_pos (hlines hshort))
      exact ⟨_, post, ⟨hread, rfl, hsock⟩, hrun⟩
  | some r =>
    obtain ⟨hsix, hr⟩ := List.getElem?_eq_some_iff.mp hsixth
    have hsplit : ∀ last, redirects ++ [last] =
        redirects.take 5 ++ r :: (redirects.drop 6 ++ [last]) := by
      intro last
      conv_lhs => rw [← List.take_append_drop 5 redirects, List.drop_eq_getElem_cons hsix, hr]
      rw [List.append_assoc, List.cons_append]
    have hfive : (redirects.take 5).length = 5 := by
      rw [List.length_take]
      omega
    have htake : redirects.take 6 = redirects.take 5 ++ [r] := by
      rw [List.take_add_one, hsixth]
      rfl
    obtain ⟨hnone, hsome⟩ := @run_redirects w url pos rounds (redirects.take 5) r
      (redirects.drop 6 ++ [answer.stream (asked w url pos redirects) file])
      (Nat.le_of_eq hfive) (fun x hx => hredirects x (List.mem_of_mem_take hx))
      (.inr (by rw [hfive]))
    rw [← hsplit] at hnone hsome
    simp only [htake, List.forall_mem_append, List.forall_mem_singleton]
    constructor
    · intro hfits
      refine hnone ?_
      by_cases hheader : readHeader [] r = none
      · exact .inr hheader
      · left
        by_contra hall
        push Not at hall
        refine hfits ⟨⟨hall, fun h => hheader ?_⟩, fun h => absurd hsix (Nat.not_lt.mpr h)⟩
        rwa [responseHeaders, Option.map_eq_none_iff] at h
    · rintro ⟨⟨hall, hheader⟩, -⟩
      rw [responseHeaders, Ne, Option.map_eq_none_iff] at hheader
      obtain ⟨⟨lines, rest⟩, hlines⟩ := Option.ne_none_iff_exists'.mp hheader
      obtain ⟨post, hsock, hread, hrun⟩ := hsome lines rest hall hlines
      exact ⟨lines, post, ⟨hread, by rw [hlines, hsock]⟩, hrun⟩

/-! ## Which answers are fed rightly -/

/-- **An answer that begins where the worker is** is fed rightly. -/
theorem Behind.carries {lines : List (List UInt8)} {post : HttpPost}
    (h : Behind w url pos redirects answer file lines post) (hbegins : Begins pos redirects answer)
    (hstart : answer.start (asked w url pos redirects) = pos) :
    ∀ c ∈ fedBehind w pos rounds lines post, c.Carries file := by
  obtain ⟨hshort, hcoding, -⟩ := hbegins
  obtain ⟨-, h⟩ := h
  rw [List.getElem?_eq_none hshort] at h
  have hprefix : post.mSock <+: file.drop pos := by
    rw [h.2, Answer.body, hcoding, hstart]
    exact List.take_prefix ..
  intro c hc
  rw [fedBehind] at hc
  split at hc
  · cases hc
  · exact carries_of_mem_runLoop rounds post pos hprefix c hc

theorem Behind.fed_eq_nil {lines : List (List UInt8)} {post : HttpPost}
    (h : Behind w url pos redirects answer file lines post)
    (hnothing : ¬Feeds w url pos redirects answer rounds file.length) :
    fedBehind w pos rounds lines post = [] := by
  obtain ⟨-, h⟩ := h
  rw [fedBehind]
  by_cases hcode : codeOf w lines < 200 ∨ codeOf w lines > 299
  · exact if_pos hcode
  have haccepted : Accepted w lines := by
    rw [Accepted]
    omega
  rw [if_neg hcode]
  refine runLoop_of_not_reads ?_
  by_contra hboth
  rw [not_or, not_not] at hboth
  refine hnothing ⟨hboth.2, ?_⟩
  cases hsixth : redirects[5]? with
  | some r =>
    rw [hsixth] at h
    exact ⟨_, h, haccepted, hboth.1⟩
  | none =>
    rw [hsixth] at h
    obtain ⟨rfl, hsock⟩ := h
    rw [hsock, Answer.body] at hboth
    refine ⟨haccepted, Nat.pos_of_ne_zero fun hd => hboth.1 ?_, fun hcoding => ?_⟩
    · rw [hd, List.take_zero]
    · by_contra hend
      refine hboth.1 ?_
      rw [hcoding]
      dsimp only
      rw [List.drop_eq_nil_of_le (by omega), List.take_nil]

/-- What begins with a byte that the file does not have at the position of the worker is not
fed rightly. -/
theorem Behind.not_carries {lines : List (List UInt8)} {post : HttpPost} {b : UInt8}
    {stream : List UInt8} (h : Behind w url pos redirects answer file lines post)
    (hsock : post.mSock = b :: stream) (hreads : Reads pos rounds)
    (haccepted : Accepted w lines) (hb : file[pos]? ≠ some b) :
    ¬∀ c ∈ fedBehind w pos rounds lines post, c.Carries file := by
  obtain ⟨block, calls, hcalls⟩ := runLoop_of_reads hsock h.1 hreads
  intro hall
  rw [fedBehind, if_neg (by rw [Accepted] at haccepted; omega), hcalls] at hall
  exact hb (hall _ (List.mem_cons_self ..)).getElem?

theorem getElem?_replicate_ne {b c : UInt8} (h : b ≠ c) (n pos : Nat) :
    (List.replicate n b)[pos]? ≠ some c := by
  intro hget
  exact h (List.eq_of_mem_replicate (List.mem_of_getElem? hget)).symm

/-- **Any other answer that is fed is fed wrongly**, for some file of the size. -/
theorem exists_fed_wrongly (hw : w.Converts) (hbegins : ¬Begins pos redirects answer)
    (hfeeds : Feeds w url pos redirects answer rounds n) :
    ∃ file : List UInt8, file.length = n ∧ ∀ lines post,
      Behind w url pos redirects answer file lines post →
        ¬∀ c ∈ fedBehind w pos rounds lines post, c.Carries file := by
  obtain ⟨hreads, hfeeds⟩ := hfeeds
  cases hsixth : redirects[5]? with
  | some r =>
    -- a page that has nothing to do with the file
    rw [hsixth] at hfeeds
    obtain ⟨⟨lines, rest⟩, hheader, haccepted, hrest⟩ := hfeeds
    obtain ⟨b, stream, rfl⟩ := List.exists_cons_of_ne_nil hrest
    refine ⟨List.replicate n (b + 1), List.length_replicate .., fun lines' post h => ?_⟩
    have hheader' := h.2
    rw [hsixth] at hheader'
    obtain ⟨rfl, hsock⟩ := Prod.mk.inj (Option.some.inj (hheader.symm.trans hheader'))
    exact h.not_carries hsock.symm hreads haccepted (getElem?_replicate_ne (by simp) n pos)
  | none =>
    rw [hsixth] at hfeeds
    obtain ⟨haccepted, hdelivered, hbody⟩ := hfeeds
    have hshort : redirects.length ≤ 5 := List.getElem?_eq_none_iff.mp hsixth
    obtain ⟨d, hd⟩ : ∃ d, answer.delivered = d + 1 := ⟨answer.delivered - 1, by omega⟩
    cases hcoding : answer.coding with
    | some coding =>
      refine ⟨List.replicate n coding.never, List.length_replicate .., fun lines post h => ?_⟩
      obtain ⟨rfl, hsock⟩ : lines = _ ∧ post.mSock = _ := by simpa only [hsixth] using h.2
      obtain ⟨b, hb, hne⟩ := coding.head_ne
        ((List.replicate n coding.never).drop (answer.start (asked w url pos redirects)))
      obtain ⟨stream, hstream⟩ := List.head?_eq_some_iff.mp hb
      rw [Answer.body, hcoding, hd] at hsock
      dsimp only at hsock
      rw [hstream] at hsock
      exact h.not_carries hsock hreads haccepted (getElem?_replicate_ne hne.symm n pos)
    | none =>
      have hwhole : ¬(answer.partialContent = true ∨ pos = 0) := fun h =>
        hbegins ⟨hshort, hcoding, h⟩
      rw [not_or] at hwhole
      have hstart : answer.start (asked w url pos redirects) = 0 := by
        rw [start_eq hw, if_neg hwhole.1]
      obtain ⟨m, rfl⟩ : ∃ m, n = m + 1 := ⟨n - 1, by have := hbody hcoding; omega⟩
      refine ⟨1 :: List.replicate m 0, by rw [List.length_cons, List.length_replicate],
        fun lines post h => ?_⟩
      obtain ⟨rfl, hsock⟩ : lines = _ ∧ post.mSock = _ := by simpa only [hsixth] using h.2
      rw [Answer.body, hcoding, hstart, hd] at hsock
      refine h.not_carries hsock hreads haccepted ?_
      obtain ⟨k, rfl⟩ : ∃ k, pos = k + 1 := ⟨pos - 1, by omega⟩
      exact getElem?_replicate_ne (by decide) m k

/-- A worker that caches the right bytes reads headers that fit, and ends with an answer that
begins where it is, or feeds nothing. -/
theorem Caches.begins (hw : w.Converts) (hredirects : ∀ r ∈ redirects, Redirects w r)
    (hfinal : locationOf (headersOf w (answer.lines.map (· ++ crlf))) = none)
    (h : Caches w url pos redirects answer rounds n) : Fits w redirects answer ∧
      (Begins pos redirects answer ∨ ¬Feeds w url pos redirects answer rounds n) := by
  have hfits : Fits w redirects answer := by
    by_contra hfits
    obtain ⟨calls, hcalls, -⟩ := h (List.replicate n 0) (List.length_replicate ..)
    rw [(cached_eq hredirects hfinal rounds _).1 hfits] at hcalls
    cases hcalls
  refine ⟨hfits, ?_⟩
  by_contra hwrong
  rw [not_or, not_not] at hwrong
  obtain ⟨file, hfile, hall⟩ := exists_fed_wrongly hw hwrong.1 hwrong.2
  obtain ⟨lines, post, hbehind, hcached⟩ := (cached_eq hredirects hfinal rounds file).2 hfits
  obtain ⟨calls, hcalls, hcarries, -⟩ := h file hfile
  rw [hcached] at hcalls
  obtain rfl := Option.some.inj hcalls
  exact hall lines post hbehind hcarries

/-- **The worker caches the right bytes**, exactly when the header lines fit and the answer
begins where the worker is, without a coding, or nothing of it is fed. -/
theorem caches_iff (hw : w.Converts) (url : List UInt16) (pos : Nat)
    (hredirects : ∀ r ∈ redirects, Redirects w r)
    (hfinal : locationOf (headersOf w (answer.lines.map (· ++ crlf))) = none)
    (rounds : List WorkerRound) (n : Nat) :
    Caches w url pos redirects answer rounds n ↔ Fits w redirects answer ∧
      (Begins pos redirects answer ∨ ¬Feeds w url pos redirects answer rounds n) := by
  refine ⟨Caches.begins hw hredirects hfinal, ?_⟩
  rintro ⟨hfits, hright⟩ file rfl
  obtain ⟨lines, post, hbehind, hcached⟩ := (cached_eq hredirects hfinal rounds file).2 hfits
  refine ⟨_, hcached, ?_⟩
  rcases hright with hbegins | hnothing
  · have hstart : answer.start (asked w url pos redirects) = pos := by
      rw [start_eq hw]
      split
      · rfl
      · exact (hbegins.2.2.resolve_left ‹_›).symm
    exact ⟨hbehind.carries hbegins hstart, fun h => absurd hstart h⟩
  · rw [hbehind.fed_eq_nil hnothing]
    exact ⟨fun c hc => absurd hc List.not_mem_nil, fun _ => rfl⟩

/-! ## A part and the whole -/

/-- An answer with the second half of a file, from a server that can do ranges. -/
def partAnswer : Answer where
  partialContent := true
  reason := ascii "Partial Content".toList
  fields := [ascii "Content-Length: 65536".toList]
  coding := none
  delivered := 65536
  oneLine := by decide
  notBlank := by decide

/-- An answer with the whole file, from a server that cannot. -/
def wholeAnswer : Answer where
  partialContent := false
  reason := ascii "OK".toList
  fields := [ascii "Content-Length: 131072".toList]
  coding := none
  delivered := 131072
  oneLine := by decide
  notBlank := by decide

/-- A round in which a block comes and is stored. -/
def oneRound : WorkerRound := ⟨65536 + 1048576, false, [], false, 0⟩

theorem converts_sampleWorld : sampleWorld.Converts := by
  intro text htext
  exact ⟨rfl, map_toUInt16_toUInt8 htext⟩

theorem caches_iff_part : Caches sampleWorld (wide "http://h/a".toList) 65536 [] partAnswer
    [oneRound] 131072 :=
  (caches_iff converts_sampleWorld _ 65536 (fun _ h => absurd h List.not_mem_nil)
    (by decide) [oneRound] 131072).mpr
      ⟨⟨fun _ h => absurd h List.not_mem_nil, fun _ => by decide⟩,
        .inl ⟨by decide, rfl, .inl rfl⟩⟩

/-- The whole file is stored as its second half. -/
theorem whole_stored_as_part : ¬Caches sampleWorld (wide "http://h/a".toList) 65536 []
    wholeAnswer [oneRound] 131072 := by
  intro h
  obtain ⟨-, hright⟩ := h.begins converts_sampleWorld (fun _ h => absurd h List.not_mem_nil)
    (by decide)
  rcases hright with ⟨-, -, hpartial | hpos⟩ | hnothing
  · cases hpartial
  · cases hpos
  · have haccepted : Accepted sampleWorld (wholeAnswer.lines.map (· ++ crlf)) := by
      rw [Accepted, codeOf_lines (by decide)]
      decide
    exact hnothing ⟨⟨oneRound, rfl, by decide, rfl⟩, haccepted, by decide,
      fun _ => (by decide : 0 < 131072)⟩

end DWindow.Cache
