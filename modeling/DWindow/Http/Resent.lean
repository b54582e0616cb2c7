import DWindow.Http.Redirect

/-!
# A request that is sent again

A `Location` makes `send_request` set the new URL and send the whole request again, on a
connection of its own.  Each of these requests announces as many bytes as it sends, but
`m_request_content_sent` goes on from where the last one has left it, and so it exceeds the
announced length as soon as there is anything to send.

`framed_iff` says that this is the only way in which the counter goes wrong.
-/

namespace DWindow.Http

open CInt CString WString

namespace HttpPost

def onSocket (w : World) (p : HttpPost) : List UInt8 := p.requestHeader w ++ bytesOf (p.body w)

/-- The objects with which `send_request` sends its requests, one for each connection. -/
def requests (w : World) : Nat → List (List UInt8) → HttpPost → List HttpPost
  | 0, _, p => if 0 ≤ p.mLastResponseCode then [] else [p]
  | maxRelocation + 1, responses, p =>
    if 0 ≤ p.mLastResponseCode then []
    else
      p :: match receive w (p.sendBody w) (responses.headD []) with
        | some (q, _, some location) => requests w maxRelocation responses.tail (q.setURL location)
        | _ => []

/-- What all of them send and where the callback is called. -/
def sending (w : World) (maxRelocation : Nat) (responses : List (List UInt8)) (p : HttpPost) :
    List Emit := (p.requests w maxRelocation responses).flatMap fun q => q.body w

end HttpPost

/-- **A call of `send_request` is framed**: each request announces the bytes behind its blank
line, and none if there are no items; the progress counter never decreases and never exceeds
the announced length, and the last call of the callback reports that all is sent. -/
structure Framed (w : World) (maxRelocation : Nat) (responses : List (List UInt8))
    (p : HttpPost) : Prop where
  announced : ∀ q ∈ p.requests w maxRelocation responses, ∃ body,
    q.onSocket w = (q.fixedLines w ++ if p.mFormItems = [] then [] else
      [ascii "Content-Length: ".toList ++ decimal body.length]).flatMap (fun line => line ++ crlf) ++
        crlf ++ body ∧ (p.mFormItems = [] → body = [])
  rises : ∀ j k, j ≤ k →
    sentAfter p.mRequestContentSent ((p.sending w maxRelocation responses).take j) ≤
      sentAfter p.mRequestContentSent ((p.sending w maxRelocation responses).take k)
  bounded : ∀ k, sentAfter p.mRequestContentSent ((p.sending w maxRelocation responses).take k) ≤
    requestContentSize w p.mFormItems
  complete : p.mFormItems ≠ [] → (progress (requestContentSize w p.mFormItems)
      p.mRequestContentSent (p.sending w maxRelocation responses)).getLast? =
    some (requestContentSize w p.mFormItems, requestContentSize w p.mFormItems)

/-- The first response has a `Location`, and `send_request` goes there. -/
def Relocates (w : World) (maxRelocation : Nat) (responses : List (List UInt8)) : Prop :=
  0 < maxRelocation ∧ locationOf (headersIn w (responses.headD [])) ≠ none

instance (w : World) (maxRelocation : Nat) (responses : List (List UInt8)) :
    Decidable (Relocates w maxRelocation responses) := inferInstanceAs (Decidable (_ ∧ _))

variable {w : World}

/-! ## The requests -/

theorem setURL_code_neg (p : HttpPost) (url : List UInt16) :
    (p.setURL url).mLastResponseCode < 0 := by
  rw [HttpPost.setURL]
  split
  · exact (by decide : (-1 : Int) < 0)
  · exact (by decide : (-1 : Int) < 0)

/-- **Where the counter ends** is where the last request leaves it. -/
theorem sendRequest_sent : ∀ {n : Nat} {responses : List (List UInt8)} {p q : HttpPost}
    {code : Int}, p.mLastResponseCode < 0 → p.sendRequest w n responses = some (code, q) →
    ∃ last ∈ (p.requests w n responses).getLast?,
      q.mRequestContentSent = (last.sendBody w).mRequestContentSent := by
  have hone : ∀ {p q : HttpPost} {response : List UInt8} {code : Int},
      (HttpPost.receive w (p.sendBody w) response).map HttpPost.finish = some (code, q) →
      q.mRequestContentSent = (p.sendBody w).mRequestContentSent := by
    intro p q response code h
    obtain ⟨hnone, hsome⟩ := receive_eq w (p.sendBody w) response
    cases hheaders : responseHeaders w response with
    | none =>
      rw [hnone hheaders] at h
      cases h
    | some headers =>
      obtain ⟨rest, c, -, hreceive⟩ := hsome headers hheaders
      rw [hreceive] at h
      cases h
      rfl
  intro n
  induction n with
  | zero =>
    intro responses p q code hp h
    rw [HttpPost.sendRequest, if_neg (Int.not_le.mpr hp)] at h
    rw [HttpPost.requests, if_neg (Int.not_le.mpr hp)]
    exact ⟨p, rfl, hone h⟩
  | succ n ih =>
    intro responses p q code hp h
    rw [HttpPost.sendRequest, if_neg (Int.not_le.mpr hp)] at h
    rw [HttpPost.requests, if_neg (Int.not_le.mpr hp)]
    cases hreceive : HttpPost.receive w (p.sendBody w) (responses.headD []) with
    | none =>
      rw [hreceive] at h
      cases h
    | some s =>
      obtain ⟨r, c, location⟩ := s
      rw [hreceive] at h
      cases location with
      | none =>
        have hfinish : (HttpPost.receive w (p.sendBody w) (responses.headD [])).map
            HttpPost.finish = some (code, q) := by
          rw [hreceive]
          exact h
        exact ⟨p, rfl, hone hfinish⟩
      | some location =>
        obtain ⟨last, hlast, hsent⟩ := ih (setURL_code_neg r location) h
        refine ⟨last, ?_, hsent⟩
        rw [Option.mem_def] at hlast ⊢
        dsimp only
        rw [List.getLast?_cons, hlast]
        rfl

theorem requests_items : ∀ {n : Nat} {responses : List (List UInt8)} {p : HttpPost},
    ∀ q ∈ p.requests w n responses, q.mFormItems = p.mFormItems := by
  intro n
  induction n with
  | zero =>
    intro responses p q hq
    rw [HttpPost.requests] at hq
    split at hq
    · exact absurd hq List.not_mem_nil
    · rw [List.mem_singleton.mp hq]
  | succ n ih =>
    intro responses p q hq
    rw [HttpPost.requests] at hq
    split at hq
    · exact absurd hq List.not_mem_nil
    · rcases List.mem_cons.mp hq with rfl | hq
      · rfl
      · obtain ⟨hnone, hsome⟩ := receive_eq w (p.sendBody w) (responses.headD [])
        cases hheaders : responseHeaders w (responses.headD []) with
        | none =>
          rw [hnone hheaders] at hq
          exact absurd hq List.not_mem_nil
        | some headers =>
          obtain ⟨rest, c, -, hreceive⟩ := hsome headers hheaders
          rw [hreceive] at hq
          cases hlocation : (locationOf headers).map (resolve (p.sendBody w).mURL) with
          | none =>
            rw [hlocation] at hq
            exact absurd hq List.not_mem_nil
          | some location =>
            rw [hlocation] at hq
            refine (ih q hq).trans ?_
            rw [HttpPost.setURL]
            split
            · rfl
            · rfl

/-- **How many there are**: one, and more only where the first response redirects. -/
theorem requests_eq {p : HttpPost} (hp : p.mLastResponseCode < 0) (n : Nat)
    (responses : List (List UInt8)) :
    (¬Relocates w n responses → p.requests w n responses = [p]) ∧
    (Relocates w n responses → ∃ q rest, p.requests w n responses = p :: q :: rest) := by
  obtain ⟨hnone, hsome⟩ := receive_eq w (p.sendBody w) (responses.headD [])
  cases n with
  | zero =>
    refine ⟨fun _ => ?_, fun h => absurd h.1 (Nat.lt_irrefl 0)⟩
    rw [HttpPost.requests, if_neg (Int.not_le.mpr hp)]
  | succ n =>
    rw [HttpPost.requests, if_neg (Int.not_le.mpr hp), Relocates, headersIn]
    cases hheaders : responseHeaders w (responses.headD []) with
    | none =>
      rw [hnone hheaders]
      exact ⟨fun _ => rfl, fun h => absurd rfl h.2⟩
    | some headers =>
      obtain ⟨rest, c, -, hreceive⟩ := hsome headers hheaders
      rw [hreceive, Option.getD_some]
      cases hlocation : locationOf headers with
      | none => exact ⟨fun _ => rfl, fun h => absurd rfl h.2⟩
      | some location =>
        refine ⟨fun h => absurd ⟨Nat.succ_pos n, Option.some_ne_none location⟩ h, fun _ => ?_⟩
        dsimp only [Option.map_some]
        cases n with
        | zero =>
          rw [HttpPost.requests, if_neg (Int.not_le.mpr (setURL_code_neg _ _))]
          exact ⟨_, [], rfl⟩
        | succ n =>
          rw [HttpPost.requests, if_neg (Int.not_le.mpr (setURL_code_neg _ _))]
          exact ⟨_, _, rfl⟩

/-! ## The counter -/

theorem requestContentSize_body {p : HttpPost} (hw : w.Delivers)
    (hread : ∀ item ∈ p.mFormItems, item.Readable w)
    (hsize : (bytesOf (p.body w)).length < 2 ^ 31) :
    requestContentSize w p.mFormItems = (bytesOf (p.body w)).length := by
  have hbytes : bytesOf (p.body w) = p.mFormItems.flatMap (FormItem.bytes w) :=
    bytesOf_sendItems hw p.mFormItems 0 hread
  rw [hbytes] at hsize ⊢
  exact requestContentSize_eq hread hsize

theorem framed_of_one {p : HttpPost} (hsent : p.mRequestContentSent = 0) {n : Nat}
    {responses : List (List UInt8)} (hone : p.requests w n responses = [p]) (hw : w.Delivers)
    (hread : ∀ item ∈ p.mFormItems, item.Readable w)
    (hsize : (bytesOf (p.body w)).length < 2 ^ 31) : Framed w n responses p := by
  have hbytes : bytesOf (p.body w) = p.mFormItems.flatMap (FormItem.bytes w) :=
    bytesOf_sendItems hw p.mFormItems 0 hread
  have htotal := requestContentSize_body hw hread hsize
  have hsending : p.sending w n responses = p.body w := by
    rw [HttpPost.sending, hone, List.flatMap_cons, List.flatMap_nil, List.append_nil]
  refine ⟨fun q hq => ?_, ?_, ?_, ?_⟩
  · rw [hone, List.mem_singleton] at hq
    subst hq
    refine ⟨bytesOf (q.body w), ?_, fun hnil => ?_⟩
    · rw [HttpPost.onSocket, HttpPost.requestHeader, requestLines_eq htotal hbytes]
    · rw [hbytes, hnil]
      rfl
  · intro j k hjk
    rw [hsending, hsent, sentAfter_take hsize, sentAfter_take hsize]
    exact Int.ofNat_le.mpr (length_bytesOf_take _ hjk)
  · intro k
    rw [hsending, hsent, sentAfter_take hsize, htotal]
    have hmono := length_bytesOf_take (p.body w) (Nat.le_max_left k (p.body w).length)
    rw [List.take_of_length_le (Nat.le_max_right k (p.body w).length)] at hmono
    exact Int.ofNat_le.mpr hmono
  · intro hne
    obtain ⟨emits, hemits⟩ := sendItems_concat w p.mFormItems 0 hne
    have hbody : p.body w = emits ++ [.callback] := hemits
    have hlast : sentAfter 0 emits = (bytesOf (p.body w)).length := by
      have hall := sentAfter_take hsize (p.body w).length
      rw [List.take_length] at hall
      rw [← hall, hbody, sentAfter_append]
      rfl
    rw [hsending, hsent, htotal, hbody, progress_append, hlast, hbody]
    exact List.getLast?_concat ..

theorem framed_of_nil {p : HttpPost} (hsent : p.mRequestContentSent = 0)
    (hitems : p.mFormItems = []) (n : Nat) (responses : List (List UInt8)) :
    Framed w n responses p := by
  have hbody : ∀ q ∈ p.requests w n responses, q.body w = [] := by
    intro q hq
    rw [HttpPost.body, requests_items q hq, hitems]
    rfl
  have hsending : p.sending w n responses = [] :=
    List.flatMap_eq_nil_iff.mpr hbody
  have hzero : requestContentSize w p.mFormItems = 0 := by
    rw [hitems]
    rfl
  refine ⟨fun q hq => ⟨[], ?_, fun _ => rfl⟩, ?_, ?_, fun hne => absurd hitems hne⟩
  · have hbytes : bytesOf (q.body w) = [] := by
      rw [hbody q hq]
      rfl
    rw [HttpPost.onSocket, hbytes, HttpPost.requestHeader, HttpPost.requestLines,
      requests_items q hq, hzero, if_pos hitems, if_neg (Int.lt_irrefl 0)]
  · intro j k _
    rw [hsending, List.take_nil, List.take_nil]
  · intro k
    rw [hsending, List.take_nil, hsent, hzero]
    exact Int.le_refl 0

/-- **Sent again, the counter goes on**: the first line of the second request is counted on
top of the whole first one. -/
theorem not_framed_of_relocates {p : HttpPost} (hp : p.mLastResponseCode < 0)
    (hsent : p.mRequestContentSent = 0) (hitems : p.mFormItems ≠ []) (hw : w.Delivers)
    (hread : ∀ item ∈ p.mFormItems, item.Readable w)
    (hsize : (bytesOf (p.body w)).length < 2 ^ 31) {n : Nat} {responses : List (List UInt8)}
    (hrelocates : Relocates w n responses) : ¬Framed w n responses p := by
  intro h
  have htotal := requestContentSize_body hw hread hsize
  obtain ⟨q, rest, hrequests⟩ := (requests_eq hp n responses).2 hrelocates
  have hq : q.mFormItems = p.mFormItems := requests_items q (by rw [hrequests]; simp)
  obtain ⟨item, items, hcons⟩ := List.exists_cons_of_ne_nil hitems
  obtain ⟨emits, hagain⟩ : ∃ emits, q.body w = .send openLine :: emits := by
    rw [HttpPost.body, hq, hcons]
    exact ⟨_, rfl⟩
  have hsending : p.sending w n responses =
      p.body w ++ .send openLine :: (emits ++ rest.flatMap fun q => q.body w) := by
    rw [HttpPost.sending, hrequests, List.flatMap_cons, List.flatMap_cons, hagain,
      List.cons_append]
  have hfirst : sentAfter 0 (p.body w) = (bytesOf (p.body w)).length := by
    have hall := sentAfter_take hsize (p.body w).length
    rwa [List.take_length] at hall
  have hnext : sentAfter 0 ((p.sending w n responses).take ((p.body w).length + 1)) =
      toInt32 ((bytesOf (p.body w)).length + openLine.length) := by
    rw [hsending, List.take_append, List.take_of_length_le (Nat.le_succ _),
      Nat.add_sub_cancel_left, List.take_succ_cons, List.take_zero, sentAfter_append, hfirst,
      sentAfter, List.foldl_cons, List.foldl_nil, count]
  have hrises := h.rises (p.body w).length ((p.body w).length + 1) (Nat.le_succ _)
  have hbounded := h.bounded ((p.body w).length + 1)
  rw [hsent, hnext, hsending, List.take_left, hfirst] at hrises
  rw [hsent, hnext, htotal] at hbounded
  -- the counter would have to stand still
  have hsame := (Int.le_antisymm hbounded hrises).trans
    (toInt32_of_lt (n := (bytesOf (p.body w)).length) (by omega) (by omega)).symm
  have hdvd := toInt32_eq_iff.mp hsame
  rw [add_sub_cancel_left] at hdvd
  exact absurd hdvd (by decide)

/-- **A request of a fresh `httppost` is framed** if and only if it has no items or is not sent
again. -/
theorem framed_iff (w : World) (url : List UInt16) (items : List FormItem)
    (requestHeaders : List (List UInt16 × List UInt16)) (n : Nat)
    (responses : List (List UInt8)) (hw : w.Delivers)
    (hread : ∀ item ∈ items, item.Readable w)
    (hsize : (bytesOf (sendItems w 0 items)).length < 2 ^ 31) :
    Framed w n responses (HttpPost.create url items requestHeaders) ↔
      items = [] ∨ ¬Relocates w n responses := by
  obtain ⟨hitems, -, -, -, hsent, hcode⟩ := create_fields url items requestHeaders
  have hneg : (HttpPost.create url items requestHeaders).mLastResponseCode < 0 := by
    rw [hcode]
    decide
  constructor
  · intro h
    rw [or_iff_not_imp_left]
    intro hne hrelocates
    exact not_framed_of_relocates hneg hsent hne hw hread hsize hrelocates h
  · rintro (hnil | hstays)
    · exact framed_of_nil hsent (hitems.trans hnil) n responses
    · exact framed_of_one hsent ((requests_eq hneg n responses).1 hstays) hw hread hsize

/-- A text and a file, to a server that answers at once. -/
theorem framed_sample : Framed sampleWorld 5 [found]
    (HttpPost.create (wide "http://h/a".toList) sampleItems []) := by
  refine (framed_iff sampleWorld _ sampleItems [] 5 [found] sampleWorld_delivers
    sampleItems_readable ?_).mpr (Or.inr (by decide))
  set_option maxRecDepth 8000 in decide

/-- **The counter exceeds the announced length**: the server redirects once, and the request
is counted twice. -/
theorem counter_exceeds_length : ¬ ∀ (w : World) (url : List UInt16) (items : List FormItem)
    (requestHeaders : List (List UInt16 × List UInt16)) (n : Nat)
    (responses : List (List UInt8)), w.Delivers → (∀ item ∈ items, item.Readable w) →
    (bytesOf (sendItems w 0 items)).length < 2 ^ 31 →
    Framed w n responses (HttpPost.create url items requestHeaders) := by
  intro h
  have hsize : (bytesOf (sendItems sampleWorld 0 sampleItems)).length < 2 ^ 31 := by
    set_option maxRecDepth 8000 in decide
  have hnot : ¬Framed sampleWorld 5 [moved, found]
      (HttpPost.create (wide "http://h/a".toList) sampleItems []) := by
    refine not_framed_of_relocates (by decide) rfl (by decide) sampleWorld_delivers ?_ ?_
      (by decide)
    · exact sampleItems_readable
    · exact hsize
  exact hnot (h sampleWorld _ sampleItems [] 5 [moved, found] sampleWorld_delivers
    sampleItems_readable hsize)

end DWindow.Http
