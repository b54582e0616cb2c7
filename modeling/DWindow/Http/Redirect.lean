import DWindow.Http.Response

/-!
# Chains of redirects

`send_request` leaves of an earlier response what `setURL` does not reset: the content
length, the progress counter, and, when `setURL` refuses the new URL, the headers.
`noTrace_iff` compares a chain of redirects and a final response with a fresh `httppost`
that asks for the final URL directly.
-/

namespace DWindow.Http

open CInt CString WString Decimal

def responseHeaders (w : World) (response : List UInt8) :
    Option (List (List UInt16 × List UInt16)) :=
  (readHeader [] response).map fun r => headersOf w r.1

def Redirects (w : World) (response : List UInt8) : Prop :=
  ∀ headers, responseHeaders w response = some headers → locationOf headers ≠ none

def IsFinal (w : World) (response : List UInt8) : Prop :=
  ∀ headers, responseHeaders w response = some headers → locationOf headers = none

/-- The headers and the `Location` of a response. -/
def headersIn (w : World) (response : List UInt8) : List (List UInt16 × List UInt16) :=
  (responseHeaders w response).getD []

def locationIn (w : World) (response : List UInt8) : List UInt16 :=
  (locationOf (headersIn w response)).getD []

/-- `m_URL` after a redirect. -/
def nextURL (w : World) (mURL : List UInt16) (response : List UInt8) : List UInt16 :=
  if Accepts (resolve mURL (locationIn w response)) then resolve mURL (locationIn w response)
  else mURL

/-- `m_URL` after some redirects. -/
def urlAfter (w : World) (mURL : List UInt16) (redirects : List (List UInt8)) : List UInt16 :=
  redirects.foldl (nextURL w) mURL

namespace HttpPost

/-- Two objects that cannot be told apart by what they report. -/
def SameOutcome (p q : HttpPost) : Prop :=
  p.mContentLength = q.mContentLength ∧ p.mHeaders = q.mHeaders ∧
    p.mRequestContentSent = q.mRequestContentSent ∧
    p.mRequestContentSize = q.mRequestContentSize ∧ ∀ sizes, p.reads sizes = q.reads sizes

def hop (w : World) (p : HttpPost) (response : List UInt8) : HttpPost :=
  HttpPost.setURL
    { p.sendBody w with
      mHeaders := p.mHeaders ++ headersIn w response
      mContentLength := (lengthOf (headersIn w response)).getD p.mContentLength }
    (resolve p.mURL (locationIn w response))

/-- A request and a response that is final, with what is still to come behind it. -/
def settle (w : World) (p : HttpPost) (response rest : List UInt8) (code : Int) : HttpPost :=
  { p.sendBody w with
    mHeaders := p.mHeaders ++ headersIn w response
    mContentLength := (lengthOf (headersIn w response)).getD p.mContentLength
    mSock := rest
    mLastResponseCode := code }

end HttpPost

/-- Nothing of the redirects is left: they are followed to the end, all lines fit, and if
there are redirects, the URL of the last is accepted, the bytes sent so far are a multiple
of the range of the counter, and the final response announces its length or none but `0`
was announced before. -/
def Clean (w : World) (maxRelocation : Nat) (url : List UInt16) (items : List FormItem)
    (redirects : List (List UInt8)) (final : List UInt8) : Prop :=
  redirects.length ≤ maxRelocation ∧
  (∀ r ∈ redirects ++ [final], responseHeaders w r ≠ none) ∧
  ∀ earlier last, redirects = earlier ++ [last] →
    Accepts (resolve (urlAfter w url earlier) (locationIn w last)) ∧
    (2 : Int) ^ 32 ∣ redirects.length * (bytesOf (sendItems w 0 items)).length ∧
    (lengthOf (headersIn w final) ≠ none ∨
      (lengthOf (redirects.flatMap (headersIn w))).getD 0 = 0)

variable {w : World}

/-! ## One request -/

theorem receive_eq (w : World) (p : HttpPost) (response : List UInt8) :
    (responseHeaders w response = none → p.receive w response = none) ∧
    ∀ headers, responseHeaders w response = some headers → ∃ rest code,
      (readHeader [] response).map Prod.snd = some rest ∧
      p.receive w response = some
        ({ p with mHeaders := p.mHeaders ++ headers
                  mContentLength := (lengthOf headers).getD p.mContentLength
                  mSock := rest }, code, (locationOf headers).map (resolve p.mURL)) := by
  rw [responseHeaders, HttpPost.receive]
  cases hread : readHeader [] response with
  | none => exact ⟨fun _ => rfl, fun headers h => by cases h⟩
  | some r =>
    refine ⟨fun h => (nomatch h), fun headers h => ?_⟩
    obtain rfl : headersOf w r.1 = headers := Option.some.inj h
    obtain ⟨code, hfold⟩ := foldl_handleLine w p 400 r.1
    refine ⟨r.2, code, rfl, ?_⟩
    simp only [Option.map_some, hfold]

/-- **A redirect** is one hop. -/
theorem sendRequest_redirect {p : HttpPost} (hp : p.mLastResponseCode < 0) {r : List UInt8}
    (hr : Redirects w r) (n : Nat) (rs : List (List UInt8)) :
    p.sendRequest w (n + 1) (r :: rs) =
      if responseHeaders w r = none then none else (p.hop w r).sendRequest w n rs := by
  rw [HttpPost.sendRequest, if_neg (Int.not_le.mpr hp), List.headD_cons, List.tail_cons]
  obtain ⟨hnone, hsome⟩ := receive_eq w (p.sendBody w) r
  cases hheaders : responseHeaders w r with
  | none => rw [hnone hheaders, if_pos rfl, Option.bind_none]
  | some headers =>
    obtain ⟨rest, code, -, hreceive⟩ := hsome headers hheaders
    obtain ⟨location, hlocation⟩ := Option.ne_none_iff_exists'.mp (hr headers hheaders)
    have hin : headersIn w r = headers := by rw [headersIn, hheaders, Option.getD_some]
    have hlocationIn : locationIn w r = location := by
      rw [locationIn, hin, hlocation, Option.getD_some]
    rw [hreceive, hlocation, if_neg (fun h => nomatch h), Option.bind_some, HttpPost.hop, hin,
      hlocationIn]
    rfl

/-- **A final response** ends the run, and so does any when no relocation is left. -/
theorem sendRequest_final {p : HttpPost} (hp : p.mLastResponseCode < 0) {r : List UInt8} {n : Nat}
    (hr : IsFinal w r ∨ n = 0) (rs : List (List UInt8)) :
    (responseHeaders w r = none → p.sendRequest w n (r :: rs) = none) ∧
    (responseHeaders w r ≠ none → ∃ rest code,
      (readHeader [] r).map Prod.snd = some rest ∧
        p.sendRequest w n (r :: rs) = some (code, p.settle w r rest code)) := by
  obtain ⟨hnone, hsome⟩ := receive_eq w (p.sendBody w) r
  refine ⟨fun h => ?_, fun h => ?_⟩
  · cases n with
    | zero => rw [HttpPost.sendRequest, if_neg (Int.not_le.mpr hp), List.headD_cons, hnone h]; rfl
    | succ n => rw [HttpPost.sendRequest, if_neg (Int.not_le.mpr hp), List.headD_cons, hnone h]; rfl
  · obtain ⟨headers, hheaders⟩ := Option.ne_none_iff_exists'.mp h
    obtain ⟨rest, code, hrest, hreceive⟩ := hsome headers hheaders
    have hin : headersIn w r = headers := by rw [headersIn, hheaders, Option.getD_some]
    refine ⟨rest, code, hrest, ?_⟩
    rw [HttpPost.settle]
    cases n with
    | zero =>
      rw [HttpPost.sendRequest, if_neg (Int.not_le.mpr hp), List.headD_cons, hreceive, hin]
      rfl
    | succ n =>
      have hfinal := hr.resolve_right (Nat.succ_ne_zero n)
      rw [HttpPost.sendRequest, if_neg (Int.not_le.mpr hp), List.headD_cons, hreceive,
        hfinal headers hheaders, hin]
      rfl

/-! ## A chain of them -/

theorem lengthOf_append (a : List (List UInt16 × List UInt16)) : ∀ b,
    lengthOf (a ++ b) = (lengthOf b).or (lengthOf a) := by
  intro b
  induction b using List.reverseRecOn with
  | nil =>
    rw [List.append_nil]
    rfl
  | append_singleton b h ih =>
    obtain ⟨name, value⟩ := h
    rw [← List.append_assoc, lengthOf_concat, lengthOf_concat, ih]
    split
    · rw [Option.or_assoc]
    · rfl

theorem locationOf_append_ne_none (a : List (List UInt16 × List UInt16)) : ∀ b,
    locationOf b ≠ none → locationOf (a ++ b) ≠ none := by
  intro b
  induction b using List.reverseRecOn with
  | nil =>
    intro h
    exact absurd rfl h
  | append_singleton b h ih =>
    obtain ⟨name, value⟩ := h
    rw [← List.append_assoc, locationOf_concat, locationOf_concat]
    split
    · exact id
    · exact ih

/-- What a chain of redirects leaves of an object. -/
structure AfterHops (w : World) (p : HttpPost) (redirects : List (List UInt8)) (q : HttpPost) :
    Prop where
  url : q.mURL = urlAfter w p.mURL redirects
  items : q.mFormItems = p.mFormItems
  code : q.mLastResponseCode < 0
  read : q.mContentRead = p.mContentRead
  sent : q.mRequestContentSent = toInt32 (p.mRequestContentSent +
    redirects.length * (bytesOf (sendItems w 0 p.mFormItems)).length)
  length : q.mContentLength = (lengthOf (redirects.flatMap (headersIn w))).getD p.mContentLength
  headers : ∀ earlier last, redirects = earlier ++ [last] →
    (q.mHeaders = [] ↔ Accepts (resolve (urlAfter w p.mURL earlier) (locationIn w last)))

theorem headersIn_ne_nil {r : List UInt8} (hr : Redirects w r)
    (hfits : responseHeaders w r ≠ none) : headersIn w r ≠ [] := by
  obtain ⟨headers, hheaders⟩ := Option.ne_none_iff_exists'.mp hfits
  rw [headersIn, hheaders, Option.getD_some]
  rintro rfl
  exact hr [] hheaders rfl

theorem hop_fields (w : World) (p : HttpPost) (r : List UInt8) :
    (p.hop w r).mURL = nextURL w p.mURL r ∧ (p.hop w r).mFormItems = p.mFormItems ∧
    (p.hop w r).mLastResponseCode = -1 ∧ (p.hop w r).mContentRead = p.mContentRead ∧
    (p.hop w r).mRequestContentSent =
      sentAfter p.mRequestContentSent (sendItems w 0 p.mFormItems) ∧
    (p.hop w r).mContentLength = (lengthOf (headersIn w r)).getD p.mContentLength ∧
    (p.hop w r).mHeaders = if Accepts (resolve p.mURL (locationIn w r)) then [] else
      p.mHeaders ++ headersIn w r := by
  rw [HttpPost.hop, HttpPost.setURL, nextURL]
  split
  · exact ⟨rfl, rfl, rfl, rfl, rfl, rfl, rfl⟩
  · exact ⟨rfl, rfl, rfl, rfl, rfl, rfl, rfl⟩

theorem foldl_hop {p : HttpPost} (hcode : p.mLastResponseCode < 0)
    (hsent : toInt32 p.mRequestContentSent = p.mRequestContentSent) :
    ∀ (redirects : List (List UInt8)), (∀ r ∈ redirects, Redirects w r) →
      (∀ r ∈ redirects, responseHeaders w r ≠ none) →
      AfterHops w p redirects (redirects.foldl (HttpPost.hop w) p) := by
  intro redirects
  induction redirects using List.reverseRecOn with
  | nil =>
    intro _ _
    refine ⟨rfl, rfl, hcode, rfl, ?_, rfl, fun earlier last h => ?_⟩
    · show p.mRequestContentSent = toInt32 (p.mRequestContentSent + (0 : Nat) * _)
      rw [Int.natCast_zero, Int.zero_mul, Int.add_zero, hsent]
    · exact absurd h (List.append_ne_nil_of_right_ne_nil _ (List.cons_ne_nil _ _)).symm
  | append_singleton rs r ih =>
    intro hredirects hfits
    have hq := ih (fun r' h => hredirects r' (List.mem_append_left _ h))
      (fun r' h => hfits r' (List.mem_append_left _ h))
    have hlast : r ∈ rs ++ [r] := List.mem_append_right _ (List.mem_singleton_self r)
    rw [List.foldl_append, List.foldl_cons, List.foldl_nil]
    obtain ⟨hurl, hitems, hcode', hread, hsent', hlength, hheaders⟩ :=
      hop_fields w (rs.foldl (HttpPost.hop w) p) r
    have hwrap : ∀ n : Int, toInt32 (toInt32 n) = toInt32 n := fun n => Int.bmod_bmod
    refine ⟨?_, hitems.trans hq.items, by rw [hcode']; decide, hread.trans hq.read, ?_, ?_, ?_⟩
    · rw [hurl, hq.url, urlAfter, urlAfter, List.foldl_append]
      rfl
    · rw [hsent', hq.sent, hq.items, sentAfter_eq _ _ (hwrap _), List.length_append,
        List.length_singleton]
      rw [show ((rs.length + 1 : Nat) : Int) = rs.length + 1 from rfl, Int.add_mul, Int.one_mul,
        ← Int.add_assoc]
      exact Int.bmod_add_bmod ..
    · rw [hlength, hq.length, List.flatMap_append, lengthOf_append, List.flatMap_singleton]
      cases lengthOf (headersIn w r) with
      | none => rfl
      | some n => rfl
    · intro earlier last h
      obtain ⟨rfl, hr⟩ := List.append_inj' h rfl
      obtain rfl : r = last := List.singleton_inj.mp hr
      rw [hheaders, hq.url]
      by_cases haccepts : Accepts (resolve (urlAfter w p.mURL rs) (locationIn w r))
      · rw [if_pos haccepts]
        exact iff_of_true rfl haccepts
      · rw [if_neg haccepts]
        refine iff_of_false (fun hnil => ?_) haccepts
        exact headersIn_ne_nil (hredirects r hlast) (hfits r hlast)
          (List.append_eq_nil_iff.mp hnil).2

/-- **A chain is its hops** and what comes behind them, if all lines fit. -/
theorem sendRequest_chain (rest : List (List UInt8)) : ∀ (redirects : List (List UInt8))
    (p : HttpPost) (n : Nat), p.mLastResponseCode < 0 → redirects.length ≤ n →
    (∀ r ∈ redirects, Redirects w r) →
    ((∀ r ∈ redirects, responseHeaders w r ≠ none) →
      p.sendRequest w n (redirects ++ rest) =
        (redirects.foldl (HttpPost.hop w) p).sendRequest w (n - redirects.length) rest) ∧
    ((∃ r ∈ redirects, responseHeaders w r = none) →
      p.sendRequest w n (redirects ++ rest) = none) := by
  intro redirects
  induction redirects with
  | nil =>
    intro p n _ _ _
    exact ⟨fun _ => rfl, fun ⟨r, hr, _⟩ => absurd hr List.not_mem_nil⟩
  | cons r rs ih =>
    intro p n hp hn hredirects
    rw [List.forall_mem_cons] at hredirects
    cases n with
    | zero => exact absurd hn (Nat.not_succ_le_zero _)
    | succ n =>
      have hcode : (p.hop w r).mLastResponseCode < 0 := by
        rw [(hop_fields w p r).2.2.1]
        decide
      obtain ⟨hall, hsome⟩ := ih (p.hop w r) n hcode (Nat.le_of_succ_le_succ hn) hredirects.2
      rw [List.cons_append, sendRequest_redirect hp hredirects.1, List.length_cons,
        Nat.succ_sub_succ]
      constructor
      · intro hfits
        rw [List.forall_mem_cons] at hfits
        rw [if_neg hfits.1, hall hfits.2]
        rfl
      · rintro ⟨r', hr', hnone⟩
        rcases List.mem_cons.mp hr' with rfl | hr'
        · rw [if_pos hnone]
        · split
          · rfl
          · exact hsome ⟨r', hr', hnone⟩

/-! ## The chain and the direct request -/

theorem create_fields (url : List UInt16) (items : List FormItem)
    (requestHeaders : List (List UInt16 × List UInt16)) :
    let p := HttpPost.create url items requestHeaders
    p.mFormItems = items ∧ p.mHeaders = [] ∧ p.mContentLength = 0 ∧ p.mContentRead = 0 ∧
      p.mRequestContentSent = 0 ∧ p.mLastResponseCode = -1 := by
  rw [HttpPost.create, HttpPost.setURL]
  split
  · exact ⟨rfl, rfl, rfl, rfl, rfl, rfl⟩
  · exact ⟨rfl, rfl, rfl, rfl, rfl, rfl⟩

theorem create_mURL {url : List UInt16} (hurl : Accepts url) (items : List FormItem)
    (requestHeaders : List (List UInt16 × List UInt16)) :
    (HttpPost.create url items requestHeaders).mURL = url := by
  rw [HttpPost.create, HttpPost.setURL]
  exact if_pos hurl ▸ rfl

/-- What is read depends on the connection, the length and what has been read. -/
theorem reads_congr : ∀ (sizes : List Int) {p q : HttpPost}, p.mSock = q.mSock →
    p.mContentLength = q.mContentLength → p.mContentRead = q.mContentRead →
    p.reads sizes = q.reads sizes := by
  intro sizes
  induction sizes with
  | nil =>
    intro p q _ _ _
    rfl
  | cons size sizes ih =>
    intro p q hsock hlength hread
    have hfst : (p.readContent size).1 = (q.readContent size).1 := by
      rw [HttpPost.readContent, HttpPost.readContent, hsock, hlength, hread]
      dsimp only
      split
      · split
        · rfl
        · rfl
      · split
        · rfl
        · rfl
    have hsnd : (p.readContent size).2.mSock = (q.readContent size).2.mSock ∧
        (p.readContent size).2.mContentLength = (q.readContent size).2.mContentLength ∧
        (p.readContent size).2.mContentRead = (q.readContent size).2.mContentRead := by
      rw [HttpPost.readContent, HttpPost.readContent, hsock, hlength, hread]
      dsimp only
      split
      · split
        · exact ⟨hsock, hlength, hread⟩
        · exact ⟨rfl, rfl, rfl⟩
      · split
        · exact ⟨hsock, hlength, hread⟩
        · exact ⟨rfl, rfl, rfl⟩
    rw [HttpPost.reads, HttpPost.reads, hfst, ih hsnd.1 hsnd.2.1 hsnd.2.2]

theorem settle_reads {p q : HttpPost} {final rest : List UInt8} {code code' : Int}
    (hread : p.mContentRead = q.mContentRead)
    (hlength : (p.settle w final rest code).mContentLength =
      (q.settle w final rest code').mContentLength)
    (sizes : List Int) :
    (p.settle w final rest code).reads sizes = (q.settle w final rest code').reads sizes :=
  reads_congr sizes rfl hlength hread

/-- **What redirects leave behind**, compared with a fresh object. -/
theorem settle_sameOutcome_iff {p q r : HttpPost} {redirects : List (List UInt8)}
    (final rest : List UInt8) (code code' : Int) (hr : AfterHops w p redirects r)
    (hp : p.mHeaders = [] ∧ p.mContentLength = 0 ∧ p.mContentRead = 0 ∧ p.mRequestContentSent = 0)
    (hq : q.mHeaders = [] ∧ q.mContentLength = 0 ∧ q.mContentRead = 0 ∧ q.mRequestContentSent = 0)
    (hitems : q.mFormItems = p.mFormItems) (hnil : redirects = [] → r = p) :
    (r.settle w final rest code).SameOutcome (q.settle w final rest code') ↔
      ∀ earlier last, redirects = earlier ++ [last] →
        Accepts (resolve (urlAfter w p.mURL earlier) (locationIn w last)) ∧
        (2 : Int) ^ 32 ∣ redirects.length * (bytesOf (sendItems w 0 p.mFormItems)).length ∧
        (lengthOf (headersIn w final) ≠ none ∨
          (lengthOf (redirects.flatMap (headersIn w))).getD 0 = 0) := by
  obtain ⟨hpheaders, hplength, hpread, hpsent⟩ := hp
  obtain ⟨hqheaders, hqlength, hqread, hqsent⟩ := hq
  -- the four differences that are possible
  have hlength : (r.settle w final rest code).mContentLength =
      (q.settle w final rest code').mContentLength ↔ lengthOf (headersIn w final) ≠ none ∨
        (lengthOf (redirects.flatMap (headersIn w))).getD 0 = 0 := by
    show (lengthOf (headersIn w final)).getD r.mContentLength =
      (lengthOf (headersIn w final)).getD q.mContentLength ↔ _
    rw [hr.length, hplength, hqlength]
    cases lengthOf (headersIn w final) with
    | none => simp
    | some n => exact iff_of_true rfl (.inl fun h => nomatch h)
  have hheaders : (r.settle w final rest code).mHeaders = (q.settle w final rest code').mHeaders ↔
      r.mHeaders = [] := by
    show r.mHeaders ++ headersIn w final = q.mHeaders ++ headersIn w final ↔ _
    rw [hqheaders, List.append_left_inj]
  have hsent : (r.settle w final rest code).mRequestContentSent =
      (q.settle w final rest code').mRequestContentSent ↔
        (2 : Int) ^ 32 ∣ redirects.length * (bytesOf (sendItems w 0 p.mFormItems)).length := by
    show sentAfter r.mRequestContentSent (sendItems w 0 r.mFormItems) =
      sentAfter q.mRequestContentSent (sendItems w 0 q.mFormItems) ↔ _
    have hwrap : ∀ n : Int, toInt32 (toInt32 n) = toInt32 n := fun n => Int.bmod_bmod
    rw [hr.sent, hr.items, hitems, hqsent, hpsent, sentAfter_eq _ _ (hwrap _), sentAfter_eq _ 0 rfl,
      toInt32_eq_iff, Int.zero_add, Int.zero_add, Int.add_sub_cancel, dvd_toInt32_iff]
  have hsize : (r.settle w final rest code).mRequestContentSize =
      (q.settle w final rest code').mRequestContentSize := by
    show requestContentSize w r.mFormItems = requestContentSize w q.mFormItems
    rw [hr.items, hitems]
  have hread : r.mContentRead = q.mContentRead := by rw [hr.read, hpread, hqread]
  rw [HttpPost.SameOutcome, hlength, hheaders, hsent]
  rcases List.eq_nil_or_concat redirects with rfl | ⟨earlier, last, rfl⟩
  · refine iff_of_true ⟨.inr rfl, ?_, ?_, hsize, fun sizes => settle_reads hread
      (hlength.mpr (.inr rfl)) sizes⟩ fun earlier last h => ?_
    · rw [hnil rfl, hpheaders]
    · exact Dvd.intro 0 (by simp)
    · exact absurd h (List.append_ne_nil_of_right_ne_nil _ (List.cons_ne_nil _ _)).symm
  · constructor
    · rintro ⟨hl, hh, hs, -, -⟩ earlier' last' h
      exact ⟨(hr.headers earlier' last' h).mp hh, hs, hl⟩
    · intro h
      obtain ⟨haccepts, hs, hl⟩ := h earlier last (List.concat_eq_append ..)
      exact ⟨hl, (hr.headers earlier last (List.concat_eq_append ..)).mpr haccepts, hs, hsize,
        fun sizes => settle_reads hread (hlength.mpr hl) sizes⟩

/-- **Redirects that are not followed** show in the headers: the response that was the last
has a location. -/
theorem headers_ne_of_redirects {p q : HttpPost} {r final rest rest' : List UInt8}
    {code code' : Int} (hr : Redirects w r) (hfits : responseHeaders w r ≠ none)
    (hfinal : IsFinal w final) (hfitsf : responseHeaders w final ≠ none) (hq : q.mHeaders = []) :
    (p.settle w r rest code).mHeaders ≠ (q.settle w final rest' code').mHeaders := by
  obtain ⟨headers, hheaders⟩ := Option.ne_none_iff_exists'.mp hfits
  obtain ⟨headers', hheaders'⟩ := Option.ne_none_iff_exists'.mp hfitsf
  show p.mHeaders ++ headersIn w r ≠ q.mHeaders ++ headersIn w final
  rw [hq, headersIn, headersIn, hheaders, hheaders', Option.getD_some, Option.getD_some,
    List.nil_append]
  intro h
  refine locationOf_append_ne_none p.mHeaders headers (hr headers hheaders) ?_
  rw [h]
  exact hfinal headers' hheaders'

/-- **Redirects leave no trace** if and only if nothing of them is left. -/
theorem noTrace_iff (w : World) {url : List UInt16} (hurl : Accepts url) (items : List FormItem)
    (requestHeaders : List (List UInt16 × List UInt16)) {redirects : List (List UInt8)}
    {final : List UInt8} (n : Nat) (hredirects : ∀ r ∈ redirects, Redirects w r)
    (hfinal : IsFinal w final) :
    (∃ code p, (HttpPost.create url items requestHeaders).sendRequest w n
        (redirects ++ [final]) = some (code, p) ∧
      ∃ code' q, (HttpPost.create p.mURL items requestHeaders).sendRequest w n [final] =
        some (code', q) ∧ p.SameOutcome q) ↔
      Clean w n url items redirects final := by
  obtain ⟨hitems, hheaders, hlength, hread, hsent, hcode⟩ := create_fields url items requestHeaders
  have hcodeneg : (HttpPost.create url items requestHeaders).mLastResponseCode < 0 := by
    rw [hcode]
    decide
  have hfollow := fun rs hn hrs rest =>
    sendRequest_chain (w := w) rest rs (HttpPost.create url items requestHeaders) n hcodeneg hn hrs
  have hfresh := fun url' => create_fields url' items requestHeaders
  have hdirect := fun url' => sendRequest_final (w := w) (n := n)
    (p := HttpPost.create url' items requestHeaders) (by rw [(hfresh url').2.2.2.2.2]; decide)
    (.inl hfinal) []
  have hops := foldl_hop (w := w) hcodeneg (by rw [hsent]; rfl)
  rw [Clean]
  rcases Nat.lt_or_ge n redirects.length with hn | hn
  · -- the run ends at a redirect
    refine iff_of_false ?_ fun h => absurd h.1 (Nat.not_le.mpr hn)
    rintro ⟨code, p, hp, code', q, hq, hpq⟩
    have hsplit : redirects ++ [final] =
        redirects.take n ++ (redirects[n] :: (redirects.drop (n + 1) ++ [final])) := by
      rw [← List.cons_append, List.getElem_cons_drop, ← List.append_assoc, List.take_append_drop]
    have hlen : (redirects.take n).length = n := List.length_take_of_le hn.le
    have htake : ∀ r ∈ redirects.take n, Redirects w r :=
      fun r hr => hredirects r (List.mem_of_mem_take hr)
    obtain ⟨hall, hsome⟩ := hfollow (redirects.take n) hlen.le htake
      (redirects[n] :: (redirects.drop (n + 1) ++ [final]))
    rw [hsplit] at hp
    by_cases hfits : ∀ r ∈ redirects.take n, responseHeaders w r ≠ none
    · have hlast := sendRequest_final (w := w) (r := redirects[n]) (hops _ htake hfits).code
        (.inr (Nat.sub_eq_zero_of_le hlen.ge)) (redirects.drop (n + 1) ++ [final])
      rw [hall hfits] at hp
      by_cases hfitsn : responseHeaders w redirects[n] = none
      · rw [hlast.1 hfitsn] at hp
        cases hp
      · obtain ⟨rest, c, -, hrun⟩ := hlast.2 hfitsn
        rw [hrun] at hp
        cases hp
        by_cases hfitsf : responseHeaders w final = none
        · rw [(hdirect _).1 hfitsf] at hq
          cases hq
        · obtain ⟨rest', c', -, hrun'⟩ := (hdirect _).2 hfitsf
          rw [hrun'] at hq
          cases hq
          exact headers_ne_of_redirects (hredirects _ (List.getElem_mem hn)) hfitsn hfinal hfitsf
            (hfresh _).2.1 hpq.2.1
    · push Not at hfits
      rw [hsome hfits] at hp
      cases hp
  · obtain ⟨hall, hsome⟩ := hfollow redirects hn hredirects [final]
    rw [and_iff_right hn]
    by_cases hfitsr : ∀ r ∈ redirects, responseHeaders w r ≠ none
    · have hlast := sendRequest_final (hops redirects hredirects hfitsr).code
        (n := n - redirects.length) (.inl hfinal) []
      by_cases hfitsf : responseHeaders w final = none
      · refine iff_of_false ?_ fun h =>
          h.1 final (List.mem_append_right _ (List.mem_singleton_self _)) hfitsf
        rintro ⟨code, p, hp, -⟩
        rw [hall hfitsr, hlast.1 hfitsf] at hp
        cases hp
      · have hfits : ∀ r ∈ redirects ++ [final], responseHeaders w r ≠ none := by
          intro r hr
          rcases List.mem_append.mp hr with hr | hr
          · exact hfitsr r hr
          · rw [List.mem_singleton.mp hr]
            exact hfitsf
        obtain ⟨rest, code, hrest, hrun⟩ := hlast.2 hfitsf
        obtain ⟨rest', code', hrest', hdirectrun⟩ := (hdirect (urlAfter w url redirects)).2 hfitsf
        obtain rfl : rest = rest' := Option.some.inj (hrest.symm.trans hrest')
        obtain ⟨hitems', hheaders', hlength', hread', hsent', -⟩ :=
          hfresh (urlAfter w url redirects)
        have hsame := settle_sameOutcome_iff final rest code code'
          (hops redirects hredirects hfitsr) ⟨hheaders, hlength, hread, hsent⟩
          ⟨hheaders', hlength', hread', hsent'⟩
          (hitems'.trans hitems.symm) (by rintro rfl; rfl)
        have hrun' := (hall hfitsr).trans hrun
        have hurlp : ((redirects.foldl (HttpPost.hop w)
            (HttpPost.create url items requestHeaders)).settle w final rest code).mURL =
              urlAfter w url redirects := by
          have hopsurl := (hops redirects hredirects hfitsr).url
          rw [create_mURL hurl] at hopsurl
          exact hopsurl
        rw [create_mURL hurl, hitems] at hsame
        rw [and_iff_right hfits, ← hsame]
        constructor
        · rintro ⟨c, p, hp, c', q, hq, hpq⟩
          rw [hrun'] at hp
          cases hp
          rw [hurlp, hdirectrun] at hq
          cases hq
          exact hpq
        · intro hpq
          exact ⟨code, _, hrun', code', _, by rw [hurlp]; exact hdirectrun, hpq⟩
    · refine iff_of_false ?_ fun h => hfitsr fun r hr => h.1 r (List.mem_append_left _ hr)
      rintro ⟨code, p, hp, -⟩
      push Not at hfitsr
      rw [hsome hfitsr] at hp
      cases hp

/-! ## Two chains -/

/-- A redirect with no length, and a response with one. -/
def moved : List UInt8 := ascii "HTTP/1.1 302 Found\r\nLocation: http://h/b\r\n\r\n".toList

def found : List UInt8 := ascii "HTTP/1.1 200 OK\r\nContent-Length: 2\r\n\r\nok".toList

theorem noTrace_moved :
    ∃ code p, (HttpPost.create (wide "http://h/a".toList) [] []).sendRequest sampleWorld 5
        ([moved] ++ [found]) = some (code, p) ∧
      ∃ code' q, (HttpPost.create p.mURL [] []).sendRequest sampleWorld 5 [found] =
        some (code', q) ∧ p.SameOutcome q := by
  have hmoved : (responseHeaders sampleWorld moved).map locationOf =
      some (some (wide "http://h/b\r".toList)) := by decide
  have hfound : (responseHeaders sampleWorld found).map locationOf = some none := by
    decide
  refine (noTrace_iff sampleWorld (by decide) [] [] 5 ?_ ?_).mpr ⟨by decide, ?_, ?_⟩
  · intro r hr headers h
    rw [List.mem_singleton.mp hr] at h
    rw [h] at hmoved
    rw [Option.some.inj hmoved]
    exact fun h => nomatch h
  · intro headers h
    rw [h] at hfound
    exact Option.some.inj hfound
  · intro r hr h
    rcases List.mem_pair.mp hr with rfl | rfl
    · rw [h] at hmoved
      cases hmoved
    · rw [h] at hfound
      cases hfound
  · intro earlier last h
    obtain ⟨rfl, h⟩ := List.append_inj' (show [] ++ [moved] = _ from h) rfl
    obtain rfl := List.singleton_inj.mp h
    exact ⟨by decide, ⟨0, rfl⟩, .inl (by decide)⟩

/-- The length of the redirect stays when the response announces none. -/
theorem length_of_redirect_left :
    let redirect :=
      ascii "HTTP/1.1 302 Found\r\nContent-Length: 5\r\nLocation: http://h/b\r\n\r\n".toList
    let response := ascii "HTTP/1.1 200 OK\r\n\r\nlonger than 5".toList
    let chain := (HttpPost.create (wide "http://h/a".toList) [] []).sendRequest sampleWorld 5
      [redirect, response]
    let direct := (HttpPost.create (wide "http://h/b".toList) [] []).sendRequest sampleWorld 5
      [response]
    chain.map (fun r => (r.2.mURL, r.2.mContentLength, (r.2.readContent 100).1.length)) =
      some (wide "http://h/b".toList, 5, 5) ∧
    direct.map (fun r => (r.2.mURL, r.2.mContentLength, (r.2.readContent 100).1.length)) =
      some (wide "http://h/b".toList, 0, 13) := by
  decide

end DWindow.Http
