import DWindow.Cache.InetFile
import DWindow.Lib.Machine
import DWindow.Lib.TwoWay
import DWindow.Lib.WString

/-!
# Tokens for URLs

`URL2Token` and `Token2URL` of `hookdshow.cpp`: a URL gets a file name of its own, which the
hooked file functions turn back into the URL.  The token is a path with the number of URLs
before it and the URL's extension, from its last dot on, cut off at `MAX_PATH`.

A `std::map` throws when it has `max_size()` entries, and a call that throws changes
nothing; `maxSize` stands for that number.  A URL without a dot has no token.
-/

namespace DWindow.Hook

open Decimal WString

/-- `g_URL2Token` and `g_Token2URL`. -/
structure TokenMaps where
  url2Token : AList fun _ : List UInt16 => List UInt16
  token2URL : AList fun _ : List UInt16 => List UInt16

/-- `wcsrchr(URL, L'.')`. -/
def lastDot (url : List UInt16) : Option (List UInt16) :=
  if 46 ∈ url then some (46 :: url.rtakeWhile (· ≠ 46)) else none

/-- `"X:\\DWindow\\"`. -/
def tokenFolder : List UInt16 := wide "X:\\DWindow\\".toList

/-- `wnsprintf(token, MAX_PATH, L"X:\\DWindow\\%d%s", n, extension)`. -/
def newToken (n : Nat) (extension : List UInt16) : List UInt16 :=
  (tokenFolder ++ decimal n ++ extension).take (Cache.MAX_PATH - 1)

namespace TokenMaps

def init : TokenMaps := ⟨∅, ∅⟩

def size (s : TokenMaps) : Nat := s.url2Token.entries.length

/-- `URL2Token`: the token, if the call returns. -/
def urlToToken (maxSize : Nat) (s : TokenMaps) (url : List UInt16) :
    TokenMaps × Option (List UInt16) :=
  match s.url2Token.lookup url with
  | some token => (s, some token)
  | none =>
    match lastDot url with
    | none => (s, none)
    | some extension =>
      if maxSize ≤ s.size then (s, none)
      else
        let token := newToken s.size extension
        (⟨s.url2Token.insert url token, s.token2URL.insert token url⟩, some token)

/-- `Token2URL`. -/
def tokenToURL (s : TokenMaps) (token : List UInt16) : Option (List UInt16) :=
  s.token2URL.lookup token

/-- The maps are inverse to each other, and the tokens are those of smaller numbers. -/
structure Paired (s : TokenMaps) : Prop where
  inverse : TwoWay.Inverse s.url2Token s.token2URL
  numbered : ∀ url token, s.url2Token.lookup url = some token →
    ∃ n < s.size, ∃ extension, newToken n (46 :: extension) = token

end TokenMaps

/-! ## Tokens of different numbers -/

theorem digits_append_dot_inj {m n : Nat} {a b : List UInt16}
    (h : decimal m ++ 46 :: a = decimal n ++ 46 :: b) : m = n := by
  have hdigits : ∀ (k : Nat) (l : List UInt16),
      (decimal k ++ 46 :: l).takeWhile isDigit = decimal k := fun k l =>
    (takeWhile_isDigit_append (fun c hc => isDigit_of_mem_decimal hc)
      (fun c hc => by rw [← Option.some.inj hc]; decide)).1
  rw [← value_decimal m, ← hdigits m a, h, hdigits n b, value_decimal]

/-- **Tokens of different numbers are different**: they differ in front of the dot, which
`MAX_PATH` leaves alone. -/
theorem newToken_inj {m n : Nat} {a b : List UInt16} (hm : m < 2 ^ 31) (hn : n < 2 ^ 31)
    (h : newToken m (46 :: a) = newToken n (46 :: b)) : m = n := by
  have hshort : ∀ k < 2 ^ 31, ∀ l : List UInt16, ∃ l', newToken k (46 :: l) =
      tokenFolder ++ (decimal k ++ 46 :: l') := by
    intro k hk l
    have hlen : (decimal k).length ≤ 10 := length_decimal_le (by decide) (by omega)
    have hroom : (tokenFolder ++ decimal k).length + 1 ≤ Cache.MAX_PATH - 1 := by
      have hfolder : tokenFolder.length = 11 := by decide
      rw [List.length_append, hfolder, Cache.MAX_PATH]
      omega
    obtain ⟨j, hj⟩ := Nat.exists_eq_add_of_le hroom
    refine ⟨l.take j, ?_⟩
    rw [newToken, hj, Nat.add_assoc, List.take_length_add_append, Nat.add_comm 1,
      List.take_succ_cons, List.append_assoc]
  obtain ⟨a', ha⟩ := hshort m hm a
  obtain ⟨b', hb⟩ := hshort n hn b
  rw [ha, hb] at h
  exact digits_append_dot_inj (List.append_cancel_left h)

namespace TokenMaps

variable {maxSize : Nat} {s : TokenMaps}

theorem init_paired : init.Paired :=
  ⟨TwoWay.inverse_empty, fun url token h => by
    rw [init, AList.lookup_empty] at h
    cases h⟩

theorem urlToToken_cases (maxSize : Nat) (s : TokenMaps) (url : List UInt16) :
    (s.urlToToken maxSize url).1 = s ∧
      (∀ token, (s.urlToToken maxSize url).2 = some token → s.url2Token.lookup url = some token) ∧
      ((s.urlToToken maxSize url).2 = none → 46 ∈ url → maxSize ≤ s.size) ∨
    s.url2Token.lookup url = none ∧ s.size < maxSize ∧ ∃ extension,
      s.urlToToken maxSize url =
        (⟨s.url2Token.insert url (newToken s.size (46 :: extension)),
          s.token2URL.insert (newToken s.size (46 :: extension)) url⟩,
          some (newToken s.size (46 :: extension))) := by
  rw [urlToToken]
  cases hlookup : s.url2Token.lookup url with
  | some token => exact .inl ⟨rfl, fun _ h => h, fun h => (by cases h)⟩
  | none =>
    dsimp only
    cases hdot : lastDot url with
    | none =>
      refine .inl ⟨rfl, fun _ h => (by cases h), fun _ hmem => ?_⟩
      rw [lastDot, if_pos hmem] at hdot
      cases hdot
    | some extension =>
      dsimp only
      rw [lastDot] at hdot
      obtain ⟨-, hextension⟩ := Option.ite_none_right_eq_some.mp hdot
      obtain rfl := Option.some.inj hextension
      split
      · next hfull => exact .inl ⟨rfl, fun _ h => (by cases h), fun _ _ => hfull⟩
      · next hroom => exact .inr ⟨rfl, Nat.lt_of_not_le hroom, url.rtakeWhile (· ≠ 46), rfl⟩

theorem size_insert {url : List UInt16} (h : s.url2Token.lookup url = none)
    (token : List UInt16) (back : AList fun _ : List UInt16 => List UInt16) :
    size ⟨s.url2Token.insert url token, back⟩ = s.size + 1 := by
  rw [size, AList.entries_insert_of_notMem (AList.lookup_eq_none.mp h), List.length_cons, size]

/-- **A new token is new.** -/
theorem Paired.fresh (hs : s.Paired) (hmax : maxSize ≤ 2 ^ 31) (hroom : s.size < maxSize)
    (extension : List UInt16) : s.token2URL.lookup (newToken s.size (46 :: extension)) = none := by
  by_contra hne
  obtain ⟨url, hurl⟩ := Option.ne_none_iff_exists'.mp hne
  obtain ⟨n, hn, extension', htoken⟩ := hs.numbered url _ ((hs.inverse url _).mpr hurl)
  have heq := newToken_inj (by omega) (by omega) htoken
  omega

/-- **A call keeps the maps paired**, and what it says is in them. -/
theorem Paired.urlToToken (hs : s.Paired) (hmax : maxSize ≤ 2 ^ 31) (url : List UInt16) :
    (s.urlToToken maxSize url).1.Paired ∧
    (∀ token, (s.urlToToken maxSize url).2 = some token →
      (s.urlToToken maxSize url).1.url2Token.lookup url = some token) ∧
    ((s.urlToToken maxSize url).2 = none → 46 ∈ url → maxSize ≤ s.size) ∧
    (∀ url' token, s.url2Token.lookup url' = some token →
      (s.urlToToken maxSize url).1.url2Token.lookup url' = some token) ∧
    s.size ≤ (s.urlToToken maxSize url).1.size := by
  rcases urlToToken_cases maxSize s url with
    ⟨hsame, htoken, hfull⟩ | ⟨hnew, hroom, extension, hcall⟩
  · rw [hsame]
    exact ⟨hs, htoken, hfull, fun _ _ h => h, Nat.le_refl _⟩
  · have hfresh := hs.fresh hmax hroom extension
    rw [hcall]
    refine ⟨⟨hs.inverse.insert hnew hfresh, fun url' token h => ?_⟩, fun token h => ?_,
      fun h => (by cases h), fun url' token h => TwoWay.lookup_insert_of_some hnew h, ?_⟩
    · rw [size_insert hnew]
      by_cases hurl : url' = url
      · subst hurl
        dsimp only at h
        rw [AList.lookup_insert] at h
        exact ⟨s.size, Nat.lt_succ_self _, extension, Option.some.inj h⟩
      · dsimp only at h
        rw [AList.lookup_insert_ne hurl] at h
        obtain ⟨n, hn, htoken⟩ := hs.numbered url' token h
        exact ⟨n, Nat.lt_succ_of_lt hn, htoken⟩
    · rw [← Option.some.inj h]
      exact AList.lookup_insert _
    · rw [size_insert hnew]
      exact Nat.le_succ _

/-- What the calls of a run have said is in the maps at the end. -/
structure Recorded (maxSize : Nat) (s s' : TokenMaps) (urls : List (List UInt16))
    (tokens : List (Option (List UInt16))) : Prop where
  paired : s'.Paired
  kept : ∀ url token, s.url2Token.lookup url = some token → s'.url2Token.lookup url = some token
  said : ∀ (i : Nat) (url token : List UInt16), urls[i]? = some url →
    tokens[i]? = some (some token) → s'.url2Token.lookup url = some token
  full : ∀ (i : Nat) (url : List UInt16), urls[i]? = some url → 46 ∈ url →
    tokens[i]? = some none → maxSize ≤ s'.size
  size : s.size ≤ s'.size

/-- **A run records what its calls say.** -/
theorem Paired.after (hmax : maxSize ≤ 2 ^ 31) : ∀ (urls : List (List UInt16)) {s : TokenMaps},
    s.Paired → s.Recorded maxSize (Machine.after (TokenMaps.urlToToken maxSize) s urls) urls
      (Machine.replies (TokenMaps.urlToToken maxSize) s urls) := by
  intro urls
  induction urls with
  | nil =>
    intro s hs
    exact ⟨hs, fun _ _ h => h, fun i url token h => (by cases h), fun i url h => (by cases h),
      Nat.le_refl _⟩
  | cons u urls ih =>
    intro s hs
    obtain ⟨hpaired, htoken, hfull, hkept, hsize⟩ := hs.urlToToken hmax u
    have hrest := ih hpaired
    refine ⟨hrest.paired, fun url token h => hrest.kept url token (hkept url token h), ?_, ?_,
      Nat.le_trans hsize hrest.size⟩
    · intro i url token hurl hreply
      cases i with
      | zero =>
        obtain rfl := Option.some.inj hurl
        exact hrest.kept u token (htoken token (Option.some.inj hreply))
      | succ i => exact hrest.said i url token hurl hreply
    · intro i url hurl hdot hreply
      cases i with
      | zero =>
        obtain rfl := Option.some.inj hurl
        exact Nat.le_trans (hfull (Option.some.inj hreply) hdot) (Nat.le_trans hsize hrest.size)
      | succ i => exact hrest.full i url hurl hdot hreply

def mapsAfter (maxSize : Nat) (urls : List (List UInt16)) : TokenMaps :=
  Machine.after (urlToToken maxSize) init urls

def tokensOf (maxSize : Nat) (urls : List (List UInt16)) : List (Option (List UInt16)) :=
  Machine.replies (urlToToken maxSize) init urls

/-- **The token maps are a bijection.**  After any calls of `URL2Token` the two maps are
inverse to each other, the tokens that two calls returned are the same exactly when their
URLs are, every token that was returned leads back to its URL, and a call for a URL with a
dot returned one unless the maps were full. -/
theorem tokens_bijective {maxSize : Nat} (hmax : maxSize ≤ 2 ^ 31) (urls : List (List UInt16)) :
    (∀ url token, (mapsAfter maxSize urls).url2Token.lookup url = some token ↔
      (mapsAfter maxSize urls).tokenToURL token = some url) ∧
    (∀ (i j : Nat) (u v t t' : List UInt16), urls[i]? = some u → urls[j]? = some v →
      (tokensOf maxSize urls)[i]? = some (some t) →
      (tokensOf maxSize urls)[j]? = some (some t') → (t = t' ↔ u = v)) ∧
    (∀ (i : Nat) (u t : List UInt16), urls[i]? = some u →
      (tokensOf maxSize urls)[i]? = some (some t) →
      (mapsAfter maxSize urls).tokenToURL t = some u) ∧
    ∀ (i : Nat) (u : List UInt16), urls[i]? = some u → 46 ∈ u →
      (tokensOf maxSize urls)[i]? = some none → maxSize ≤ (mapsAfter maxSize urls).size := by
  have hs : init.Recorded maxSize (mapsAfter maxSize urls) urls (tokensOf maxSize urls) :=
    init_paired.after hmax urls
  refine ⟨hs.paired.inverse, fun i j u v t t' hu hv ht ht' => ?_, fun i u t hu ht => ?_, hs.full⟩
  · have hlookup := hs.said i u t hu ht
    have hlookup' := hs.said j v t' hv ht'
    constructor
    · rintro rfl
      exact hs.paired.inverse.injective hlookup hlookup'
    · rintro rfl
      exact Option.some.inj (hlookup.symm.trans hlookup')
  · exact (hs.paired.inverse u t).mp (hs.said i u t hu ht)

def threeURLs : List (List UInt16) :=
  [wide "http://h/a.mkv".toList, wide "http://h/b.mkv".toList, wide "http://h/a.mkv".toList]

theorem tokens_bijective_three :
    tokensOf 1000 threeURLs = [some (wide "X:\\DWindow\\0.mkv".toList),
      some (wide "X:\\DWindow\\1.mkv".toList), some (wide "X:\\DWindow\\0.mkv".toList)] ∧
    (∀ url token, (mapsAfter 1000 threeURLs).url2Token.lookup url = some token ↔
      (mapsAfter 1000 threeURLs).tokenToURL token = some url) ∧
    (∀ (i j : Nat) (u v t t' : List UInt16), threeURLs[i]? = some u → threeURLs[j]? = some v →
      (tokensOf 1000 threeURLs)[i]? = some (some t) →
      (tokensOf 1000 threeURLs)[j]? = some (some t') → (t = t' ↔ u = v)) ∧
    (∀ (i : Nat) (u t : List UInt16), threeURLs[i]? = some u →
      (tokensOf 1000 threeURLs)[i]? = some (some t) →
      (mapsAfter 1000 threeURLs).tokenToURL t = some u) ∧
    ∀ (i : Nat) (u : List UInt16), threeURLs[i]? = some u → 46 ∈ u →
      (tokensOf 1000 threeURLs)[i]? = some none → 1000 ≤ (mapsAfter 1000 threeURLs).size :=
  ⟨by decide, tokens_bijective (by decide) threeURLs⟩

end TokenMaps

end DWindow.Hook
