import DWindow.Lib.Runs

/-!
# Activation cards

`user_change.php` selects the user, selects the card, decides over user type, expiry and card
type, and then upgrades the user and marks the card in three updates, without a transaction.  A
step here is one statement of one of the requests; beside the tables stands the log of the
updates with the request each belongs to.

A second request may pass its check while the first one has not marked the card yet
(`two_users`).  Where no request does (`Alone`), a card is spent once (`cards_spent`).

Two names or two codes are the same when the database takes them for equal.
-/

namespace DWindow.Php

open Runs

/-- A row of `users`, as far as the request uses it. -/
structure UserRow (Text : Type*) where
  name : Text
  usertype : Int
  expire : Int
deriving DecidableEq

/-- A row of `cards`. -/
structure CardRow (Text : Type*) where
  used : Int
  type : Int
  code : Text
  pass : Text
deriving DecidableEq

/-- What is posted; `valid` says that `op` is `"valid"`, which the form of a first request asks
for. -/
structure CardOrder (Text : Type*) where
  username : Text
  card : Text
  password : Text
  valid : Bool
deriving DecidableEq

inductive CardUpdate
  | usertype (type : Int)
  | expire (time : Int)
  | used
deriving DecidableEq

inductive CardAnswer
  | userNotFound
  | invalidCard
  | cardUsed
  /-- the user is a donor already and needs no donation card -/
  | noNeed
  /-- a personal card is for personal users only -/
  | personalOnly
  /-- a donation card is for accounts that are not activated -/
  | inactiveOnly
  | activated
  | form
  | failed
  | done
deriving DecidableEq

/-- How far a request has come: the select of the user, the select of the card, or the updates
that are ahead. -/
inductive CardStage
  | selectUser
  | selectCard (usertype expire : Int)
  | update (ahead : List CardUpdate)
  | ended (answer : CardAnswer)
deriving DecidableEq

structure CardRequest (Text : Type*) where
  order : CardOrder Text
  stage : CardStage
deriving DecidableEq

/-- An update that was executed, and the request it belongs to. -/
structure CardEntry (Text : Type*) where
  request : Nat
  order : CardOrder Text
  update : CardUpdate
deriving DecidableEq

structure Cards (Text : Type*) where
  users : List (UserRow Text)
  cards : List (CardRow Text)
  requests : List (CardRequest Text)
  log : List (CardEntry Text)

/-- A new request, or the next statement of a request at some time. -/
inductive CardEvent (Text : Type*)
  | start (order : CardOrder Text)
  | statement (r : Nat) (now : Int)

/-- Every activation ends at the same time. -/
def newExpire : Int := 1931316605

/-- The updates for a type of card, none for the types 2 and 3. -/
def doIt (cardtype : Int) : CardStage :=
  if cardtype = 0 then .update [.usertype 2, .expire newExpire, .used]
  else if cardtype = 1 then .update [.expire newExpire, .used, .usertype 0]
  else .ended .failed

/-- The decision over user type, expiry and card type. -/
def check (valid : Bool) (usertype expire cardtype now : Int) : CardStage :=
  let next := if valid then doIt cardtype else .ended .form
  if usertype = 2 ∧ cardtype = 0 then .ended .noNeed
  else if usertype = 2 ∧ cardtype ≠ 0 then next
  else if usertype ≠ 0 ∧ cardtype ≠ 0 then .ended .personalOnly
  else if usertype ≠ 0 ∧ cardtype = 0 then .ended .inactiveOnly
  else if usertype = 0 ∧ now < expire ∧ cardtype = 0 then .ended .activated
  else if usertype = 0 ∧ now < expire ∧ cardtype ≠ 0 then .ended .activated
  else next

namespace CardStage

/-- The updates that are ahead. -/
def ahead : CardStage → List CardUpdate
  | .update ahead => ahead
  | _ => []

/-- The request has passed its check. -/
def Spends : CardStage → Prop
  | .update _ => True
  | .ended answer => answer = .done
  | _ => False

instance : ∀ stage : CardStage, Decidable stage.Spends
  | .update _ => isTrue trivial
  | .ended answer => inferInstanceAs (Decidable (answer = .done))
  | .selectUser => isFalse not_false
  | .selectCard _ _ => isFalse not_false

def after : List CardUpdate → CardStage
  | [] => .ended .done
  | u :: ahead => .update (u :: ahead)

end CardStage

namespace Cards

variable {Text : Type*} [DecidableEq Text] (s : Cards Text)

/-- `select * from users where name = …`. -/
def selectUser (order : CardOrder Text) : CardStage :=
  match s.users.find? fun row => row.name = order.username with
  | none => .ended .userNotFound
  | some row => .selectCard row.usertype row.expire

/-- `select * from cards where code = … and pass= …`, and the decision. -/
def selectCard (order : CardOrder Text) (usertype expire now : Int) : CardStage :=
  match s.cards.find? fun row => row.code = order.card ∧ row.pass = order.password with
  | none => .ended .invalidCard
  | some row =>
    if row.used ≠ 0 then .ended .cardUsed else check order.valid usertype expire row.type now

def execute (order : CardOrder Text) : CardUpdate → Cards Text
  | .usertype type =>
    { s with users := s.users.map fun row =>
        if row.name = order.username then { row with usertype := type } else row }
  | .expire time =>
    { s with users := s.users.map fun row =>
        if row.name = order.username then { row with expire := time } else row }
  | .used =>
    { s with cards := s.cards.map fun row =>
        if row.code = order.card then { row with used := 1 } else row }

def goTo (r : Nat) (order : CardOrder Text) (stage : CardStage) : Cards Text :=
  { s with requests := s.requests.set r ⟨order, stage⟩ }

def statement (r : Nat) (now : Int) (q : CardRequest Text) : Cards Text :=
  match q.stage with
  | .selectUser => s.goTo r q.order (s.selectUser q.order)
  | .selectCard usertype expire => s.goTo r q.order (s.selectCard q.order usertype expire now)
  | .update (u :: ahead) =>
    let t := (s.execute q.order u).goTo r q.order (.after ahead)
    { t with log := t.log ++ [⟨r, q.order, u⟩] }
  | _ => s

def step : CardEvent Text → Cards Text
  | .start order => { s with requests := s.requests ++ [⟨order, .selectUser⟩] }
  | .statement r now => (s.requests[r]?.map (s.statement r now)).getD s

def init (users : List (UserRow Text)) (cards : List (CardRow Text)) : Cards Text :=
  ⟨users, cards, [], []⟩

/-- Every card of this code is marked. -/
def Marked (code : Text) : Prop := ∀ card ∈ s.cards, card.code = code → card.used ≠ 0

/-- **A card is spent once**: the updates with one code are of one request for one user, a
request that ended with another answer than success has none, and the card is marked as soon as
its request has no mark ahead. -/
structure Spent : Prop where
  once : ∀ e ∈ s.log, ∀ e' ∈ s.log, e.order.card = e'.order.card →
    e.request = e'.request ∧ e.order.username = e'.order.username
  failed : ∀ r order answer, s.requests[r]? = some ⟨order, .ended answer⟩ → answer ≠ .done →
    ∀ e ∈ s.log, e.request ≠ r
  marked : ∀ e ∈ s.log, ∀ q ∈ s.requests[e.request]?,
    (s.Marked e.order.card ↔ .used ∉ q.stage.ahead)

/-- The next statement is the select of a card that the request goes on to spend. -/
def Passes (now : Int) (q : CardRequest Text) : Prop :=
  match q.stage with
  | .selectCard usertype expire => (s.selectCard q.order usertype expire now).Spends
  | _ => False

instance (now : Int) : ∀ q : CardRequest Text, Decidable (s.Passes now q)
  | ⟨order, .selectCard usertype expire⟩ =>
    inferInstanceAs (Decidable (s.selectCard order usertype expire now).Spends)
  | ⟨_, .selectUser⟩ => isFalse not_false
  | ⟨_, .update _⟩ => isFalse not_false
  | ⟨_, .ended _⟩ => isFalse not_false

/-- No request passes its check while another one, which has passed it for the same code, has
its mark ahead. -/
def Alone : CardEvent Text → Prop
  | .start _ => True
  | .statement r now => ∀ q ∈ s.requests[r]?, s.Passes now q →
      ∀ q' ∈ s.requests, q'.order.card = q.order.card → .used ∉ q'.stage.ahead

instance decidableAlone : ∀ e, Decidable (s.Alone e)
  | .start _ => isTrue trivial
  | .statement r now => inferInstanceAs (Decidable (∀ q ∈ s.requests[r]?, s.Passes now q →
      ∀ q' ∈ s.requests, q'.order.card = q.order.card → .used ∉ q'.stage.ahead))

variable {s}

/-! ## What a statement keeps -/

/-- The invariant: an update belongs to a request that has passed its check, such a request
shares its code with no other one, and its card is marked when its mark is not ahead. -/
structure Inv (s : Cards Text) : Prop where
  owner : ∀ e ∈ s.log, ∃ q, s.requests[e.request]? = some q ∧ q.order = e.order ∧ q.stage.Spends
  once : ∀ (r r' : Nat) (q q' : CardRequest Text), s.requests[r]? = some q →
    s.requests[r']? = some q' → q.stage.Spends → q'.stage.Spends →
    q.order.card = q'.order.card → r = r'
  marked : ∀ (r : Nat) (q : CardRequest Text), s.requests[r]? = some q → q.stage.Spends →
    (s.Marked q.order.card ↔ .used ∉ q.stage.ahead)
  nodup : ∀ (r : Nat) (q : CardRequest Text), s.requests[r]? = some q → q.stage.ahead.Nodup

omit [DecidableEq Text] in
/-- **A card is spent once.** -/
theorem Inv.spent (h : s.Inv) : s.Spent := by
  refine ⟨fun e he e' he' hcard => ?_, fun r order answer hr hanswer e he heq => ?_,
    fun e he q hq => ?_⟩
  · obtain ⟨q, hq, horder, hspends⟩ := h.owner e he
    obtain ⟨q', hq', horder', hspends'⟩ := h.owner e' he'
    have hr : e.request = e'.request :=
      h.once _ _ q q' hq hq' hspends hspends' (by rw [horder, horder', hcard])
    rw [hr, hq', Option.some.injEq] at hq
    exact ⟨hr, by rw [← horder, ← horder', hq]⟩
  · obtain ⟨q, hq, -, hspends⟩ := h.owner e he
    rw [heq, hr, Option.some.injEq] at hq
    rw [← hq] at hspends
    exact hanswer hspends
  · obtain ⟨q', hq', horder, hspends⟩ := h.owner e he
    rw [hq', Option.mem_some_iff] at hq
    subst hq
    rw [← horder]
    exact h.marked _ _ hq' hspends

theorem getElem?_set_iff {α : Type*} {l : List α} {r r' : Nat} {a b c : α} (h : l[r]? = some a) :
    (l.set r b)[r']? = some c ↔ (r' = r ∧ c = b) ∨ (r' ≠ r ∧ l[r']? = some c) := by
  obtain ⟨hr, -⟩ := List.getElem?_eq_some_iff.mp h
  by_cases heq : r' = r
  · subst heq
    rw [List.getElem?_set_self hr]
    simp [eq_comm]
  · rw [List.getElem?_set_ne (Ne.symm heq)]
    simp [heq]

theorem doIt_ahead (cardtype : Int) : (doIt cardtype).ahead.Nodup ∧
    ((doIt cardtype).Spends → .used ∈ (doIt cardtype).ahead) := by
  unfold doIt
  split
  · exact ⟨by decide, fun _ => by decide⟩
  · split
    · exact ⟨by decide, fun _ => by decide⟩
    · exact ⟨List.nodup_nil, nofun⟩

theorem check_ahead (valid : Bool) (usertype expire cardtype now : Int) :
    (check valid usertype expire cardtype now).ahead.Nodup ∧
    ((check valid usertype expire cardtype now).Spends →
      .used ∈ (check valid usertype expire cardtype now).ahead) := by
  have hended : ∀ answer, answer ≠ .done → (CardStage.ended answer).ahead.Nodup ∧
      ((CardStage.ended answer).Spends → .used ∈ (CardStage.ended answer).ahead) :=
    fun answer hanswer => ⟨List.nodup_nil, fun hspends => absurd hspends hanswer⟩
  have hnext : (if valid then doIt cardtype else .ended .form).ahead.Nodup ∧
      ((if valid then doIt cardtype else .ended .form).Spends →
        .used ∈ (if valid then doIt cardtype else .ended .form).ahead) := by
    cases valid with
    | true => exact doIt_ahead cardtype
    | false => exact hended _ nofun
  simp only [check]
  generalize (if valid then doIt cardtype else .ended .form) = next at hnext ⊢
  split
  · exact hended .noNeed nofun
  · split
    · exact hnext
    · split
      · exact hended .personalOnly nofun
      · split
        · exact hended .inactiveOnly nofun
        · split
          · exact hended .activated nofun
          · split
            · exact hended .activated nofun
            · exact hnext

omit [DecidableEq Text] in
/-- **A select** keeps the invariant, when what passes is unmarked and has a code of its own. -/
theorem Inv.goTo (h : s.Inv) {r : Nat} {q : CardRequest Text} {stage : CardStage}
    (hq : s.requests[r]? = some q) (hnot : ¬ q.stage.Spends) (hnodup : stage.ahead.Nodup)
    (hstage : stage.Spends → .used ∈ stage.ahead ∧ ¬ s.Marked q.order.card ∧
      ∀ q' ∈ s.requests, q'.stage.Spends → q'.order.card ≠ q.order.card) :
    (s.goTo r q.order stage).Inv := by
  refine ⟨fun e he => ?_, fun r₁ r₂ q₁ q₂ h₁ h₂ hs₁ hs₂ hcard => ?_, fun r₁ q₁ h₁ hs₁ => ?_,
    fun r₁ q₁ h₁ => ?_⟩
  · obtain ⟨q', hq', horder, hspends⟩ := h.owner e he
    refine ⟨q', (getElem?_set_iff hq).mpr (.inr ⟨?_, hq'⟩), horder, hspends⟩
    rintro heq
    rw [heq, hq, Option.some.injEq] at hq'
    exact hnot (hq' ▸ hspends)
  · rcases (getElem?_set_iff hq).mp h₁ with ⟨rfl, rfl⟩ | ⟨hne₁, hq₁⟩ <;>
      rcases (getElem?_set_iff hq).mp h₂ with ⟨rfl, rfl⟩ | ⟨hne₂, hq₂⟩
    · rfl
    · exact absurd hcard.symm ((hstage hs₁).2.2 q₂ (List.mem_of_getElem? hq₂) hs₂)
    · exact absurd hcard ((hstage hs₂).2.2 q₁ (List.mem_of_getElem? hq₁) hs₁)
    · exact h.once r₁ r₂ q₁ q₂ hq₁ hq₂ hs₁ hs₂ hcard
  · rcases (getElem?_set_iff hq).mp h₁ with ⟨rfl, rfl⟩ | ⟨hne₁, h₁⟩
    · exact iff_of_false (hstage hs₁).2.1 (not_not_intro (hstage hs₁).1)
    · exact h.marked r₁ q₁ h₁ hs₁
  · rcases (getElem?_set_iff hq).mp h₁ with ⟨rfl, rfl⟩ | ⟨hne₁, h₁⟩
    · exact hnodup
    · exact h.nodup r₁ q₁ h₁

theorem Inv.selectUser (h : s.Inv) {r : Nat} {q : CardRequest Text}
    (hq : s.requests[r]? = some q) (hstage : q.stage = .selectUser) :
    (s.goTo r q.order (s.selectUser q.order)).Inv := by
  have hnot : ¬ (s.selectUser q.order).Spends ∧ (s.selectUser q.order).ahead = [] := by
    unfold Cards.selectUser
    split
    · exact ⟨nofun, rfl⟩
    · exact ⟨nofun, rfl⟩
  refine h.goTo hq ?_ ?_ fun hspends => absurd hspends hnot.1
  · rw [hstage]
    exact nofun
  · rw [hnot.2]
    exact List.nodup_nil

/-- A request that passes has found an unmarked card of its code. -/
theorem selectCard_ahead (order : CardOrder Text) (usertype expire now : Int) :
    (s.selectCard order usertype expire now).ahead.Nodup ∧
    ((s.selectCard order usertype expire now).Spends →
      .used ∈ (s.selectCard order usertype expire now).ahead ∧ ¬ s.Marked order.card) := by
  unfold Cards.selectCard
  split
  · exact ⟨List.nodup_nil, nofun⟩
  · next row hrow =>
    split
    · exact ⟨List.nodup_nil, nofun⟩
    · next hused =>
      have hahead := check_ahead order.valid usertype expire row.type now
      refine ⟨hahead.1, fun hspends => ⟨hahead.2 hspends, fun hmarked => hused ?_⟩⟩
      have hcode := List.find?_some hrow
      exact hmarked row (List.mem_of_find?_eq_some hrow) (of_decide_eq_true hcode).1

theorem Inv.selectCard (h : s.Inv) {r : Nat} {now : Int} {q : CardRequest Text}
    (hq : s.requests[r]? = some q) {usertype expire : Int}
    (hstage : q.stage = .selectCard usertype expire)
    (halone : (s.selectCard q.order usertype expire now).Spends →
      ∀ q' ∈ s.requests, q'.order.card = q.order.card → .used ∉ q'.stage.ahead) :
    (s.goTo r q.order (s.selectCard q.order usertype expire now)).Inv := by
  have hahead := selectCard_ahead (s := s) q.order usertype expire now
  refine h.goTo hq (by rw [hstage]; exact nofun) hahead.1 fun hspends => ?_
  refine ⟨(hahead.2 hspends).1, (hahead.2 hspends).2, fun q' hq' hspends' hcard => ?_⟩
  -- the other request has marked the card, and this one has found it unmarked
  obtain ⟨r', hr'⟩ := List.getElem?_of_mem hq'
  have hmarked := (h.marked r' q' hr' hspends').mpr (halone hspends q' hq' hcard)
  rw [hcard] at hmarked
  exact (hahead.2 hspends).2 hmarked

theorem marked_execute (order : CardOrder Text) (u : CardUpdate) {code : Text}
    (hcode : code ≠ order.card ∨ u ≠ .used) :
    (s.execute order u).Marked code ↔ s.Marked code := by
  cases u with
  | usertype type => exact Iff.rfl
  | expire time => exact Iff.rfl
  | used =>
    have hne := hcode.resolve_right (not_not_intro rfl)
    refine ⟨fun hmarked card hcard hof => ?_, fun hmarked card hcard hof => ?_⟩
    · have hmem : card ∈ (s.execute order .used).cards := by
        refine List.mem_map.mpr ⟨card, hcard, if_neg ?_⟩
        rw [hof]
        exact hne
      exact hmarked card hmem hof
    · obtain ⟨row, hrow, rfl⟩ := List.mem_map.mp hcard
      by_cases heq : row.code = order.card
      · rw [if_pos heq] at hof
        exact absurd (hof.symm.trans heq) hne
      · rw [if_neg heq] at hof ⊢
        exact hmarked row hrow hof

theorem marked_used (order : CardOrder Text) : (s.execute order .used).Marked order.card := by
  intro card hcard hof
  obtain ⟨row, hrow, rfl⟩ := List.mem_map.mp hcard
  by_cases heq : row.code = order.card
  · rw [if_pos heq]
    exact Int.one_ne_zero
  · rw [if_neg heq] at hof
    exact absurd hof heq

theorem after_spends (ahead : List CardUpdate) :
    (CardStage.after ahead).Spends ∧ (CardStage.after ahead).ahead = ahead := by
  cases ahead with
  | nil => exact ⟨rfl, rfl⟩
  | cons u ahead => exact ⟨trivial, rfl⟩

omit [DecidableEq Text] in
theorem requests_execute [DecidableEq Text] (order : CardOrder Text) (u : CardUpdate) :
    (s.execute order u).requests = s.requests ∧ (s.execute order u).log = s.log := by
  cases u <;> exact ⟨rfl, rfl⟩

theorem Inv.update (h : s.Inv) {r : Nat} (now : Int) {q : CardRequest Text} {u : CardUpdate}
    {ahead : List CardUpdate} (hq : s.requests[r]? = some q)
    (hstage : q.stage = .update (u :: ahead)) : (s.statement r now q).Inv := by
  have hspends : q.stage.Spends := by
    rw [hstage]
    exact trivial
  have hnodup := h.nodup r q hq
  rw [hstage] at hnodup
  have hstatement : s.statement r now q =
      { s.execute q.order u with
        requests := s.requests.set r ⟨q.order, .after ahead⟩
        log := s.log ++ [⟨r, q.order, u⟩] } := by
    simp only [Cards.statement, hstage, Cards.goTo]
    rw [(requests_execute q.order u).1, (requests_execute q.order u).2]
  rw [hstatement]
  refine ⟨fun e he => ?_, fun r₁ r₂ q₁ q₂ h₁ h₂ hs₁ hs₂ hcard => ?_, fun r₁ q₁ h₁ hs₁ => ?_,
    fun r₁ q₁ h₁ => ?_⟩
  · rcases List.mem_append.mp he with he | he
    · obtain ⟨q', hq', horder, hspends'⟩ := h.owner e he
      by_cases heq : e.request = r
      · rw [heq, hq, Option.some.injEq] at hq'
        exact ⟨_, (getElem?_set_iff hq).mpr (.inl ⟨heq, rfl⟩), hq' ▸ horder, (after_spends ahead).1⟩
      · exact ⟨q', (getElem?_set_iff hq).mpr (.inr ⟨heq, hq'⟩), horder, hspends'⟩
    · rw [List.mem_singleton.mp he]
      exact ⟨_, (getElem?_set_iff hq).mpr (.inl ⟨rfl, rfl⟩), rfl, (after_spends ahead).1⟩
  · rcases (getElem?_set_iff hq).mp h₁ with ⟨rfl, rfl⟩ | ⟨hne₁, hq₁⟩ <;>
      rcases (getElem?_set_iff hq).mp h₂ with ⟨rfl, rfl⟩ | ⟨hne₂, hq₂⟩
    · rfl
    · exact h.once _ r₂ q q₂ hq hq₂ hspends hs₂ hcard
    · exact h.once r₁ _ q₁ q hq₁ hq hs₁ hspends hcard
    · exact h.once r₁ r₂ q₁ q₂ hq₁ hq₂ hs₁ hs₂ hcard
  · rcases (getElem?_set_iff hq).mp h₁ with ⟨rfl, rfl⟩ | ⟨hne₁, h₁⟩
    · rw [(after_spends ahead).2]
      by_cases hu : u = .used
      · subst hu
        exact iff_of_true (marked_used q.order) (List.nodup_cons.mp hnodup).1
      · have hmarked := h.marked _ q hq hspends
        rw [hstage] at hmarked
        refine (marked_execute q.order u (.inr hu)).trans (hmarked.trans ?_)
        exact not_congr (List.mem_cons.trans (or_iff_right (Ne.symm hu)))
    · have hne : q₁.order.card ≠ q.order.card := fun hcard =>
        hne₁ (h.once r₁ r q₁ q h₁ hq hs₁ hspends hcard)
      exact (marked_execute q.order u (.inl hne)).trans (h.marked r₁ q₁ h₁ hs₁)
  · rcases (getElem?_set_iff hq).mp h₁ with ⟨rfl, rfl⟩ | ⟨hne₁, h₁⟩
    · rw [(after_spends ahead).2]
      exact (List.nodup_cons.mp hnodup).2
    · exact h.nodup r₁ q₁ h₁

theorem Inv.start (h : s.Inv) (order : CardOrder Text) : (s.step (.start order)).Inv := by
  have hold : ∀ (r : Nat) (q : CardRequest Text),
      (s.requests ++ [⟨order, .selectUser⟩])[r]? = some q → q.stage.Spends →
      s.requests[r]? = some q := by
    intro r q hq hspends
    rw [List.getElem?_append] at hq
    split at hq
    · exact hq
    · have hmem := List.mem_singleton.mp (List.mem_of_getElem? hq)
      rw [hmem] at hspends
      exact absurd hspends nofun
  refine ⟨fun e he => ?_, fun r₁ r₂ q₁ q₂ h₁ h₂ hs₁ hs₂ hcard => ?_, fun r₁ q₁ h₁ hs₁ => ?_,
    fun r₁ q₁ h₁ => ?_⟩
  · obtain ⟨q, hq, horder, hspends⟩ := h.owner e he
    refine ⟨q, ?_, horder, hspends⟩
    exact (List.getElem?_append_left (List.getElem?_eq_some_iff.mp hq).1).trans hq
  · exact h.once r₁ r₂ q₁ q₂ (hold r₁ q₁ h₁ hs₁) (hold r₂ q₂ h₂ hs₂) hs₁ hs₂ hcard
  · exact h.marked r₁ q₁ (hold r₁ q₁ h₁ hs₁) hs₁
  · rcases List.mem_append.mp (List.mem_of_getElem? h₁) with hmem | hmem
    · obtain ⟨r, hr⟩ := List.getElem?_of_mem hmem
      exact h.nodup r q₁ hr
    · rw [List.mem_singleton.mp hmem]
      exact List.nodup_nil

theorem Inv.step (h : s.Inv) {e : CardEvent Text} (halone : s.Alone e) : (s.step e).Inv := by
  cases e with
  | start order => exact h.start order
  | statement r now =>
    change Inv ((s.requests[r]?.map (s.statement r now)).getD s)
    cases hq : s.requests[r]? with
    | none => exact h
    | some q =>
      have hpasses := halone q hq
      obtain ⟨order, stage⟩ := q
      cases stage with
      | selectUser => exact h.selectUser hq rfl
      | selectCard usertype expire => exact h.selectCard hq rfl hpasses
      | update ahead =>
        cases ahead with
        | nil => exact h
        | cons u ahead => exact h.update now hq rfl
      | ended answer => exact h

omit [DecidableEq Text] in
theorem inv_init (users : List (UserRow Text)) (cards : List (CardRow Text)) :
    (init users cards).Inv where
  owner _ he := absurd he List.not_mem_nil
  once _ _ _ _ hq := absurd (List.mem_of_getElem? hq) List.not_mem_nil
  marked _ _ hq := absurd (List.mem_of_getElem? hq) List.not_mem_nil
  nodup _ _ hq := absurd (List.mem_of_getElem? hq) List.not_mem_nil

/-- **A card is spent once** in every state of a run in which no request passes its check while
another one, which has passed it for the same code, has its mark ahead. -/
theorem cards_spent (users : List (UserRow Text)) (cards : List (CardRow Text))
    (events : List (CardEvent Text)) (h : Along step Alone (init users cards) events) (k : Nat) :
    (run step (init users cards) (events.take k)).Spent :=
  (along_run Inv (fun _ _ hinv halone => Inv.step hinv halone) _ _
    (inv_init users cards) (along_take h k)).spent

/-- Two requests with one card, one after the other: the second is refused. -/
theorem cards_spent_refused :
    Spent (run step (init [⟨"a", 0, 0⟩, ⟨"b", 0, 0⟩] [⟨0, 0, "c", "p"⟩])
      ([.start ⟨"a", "c", "p", true⟩, .statement 0 9, .statement 0 9, .statement 0 9,
        .statement 0 9, .statement 0 9, .start ⟨"b", "c", "p", true⟩, .statement 1 9,
        .statement 1 9].take 9)) :=
  cards_spent _ _ _ (by decide) 9

/-- Two requests that both check the card before one of them marks it: both users are upgraded. -/
theorem two_users :
    ∃ events : List (CardEvent String),
      ¬ (run step (init [⟨"a", 0, 0⟩, ⟨"b", 0, 0⟩] [⟨0, 0, "c", "p"⟩]) events).Spent := by
  refine ⟨[.start ⟨"a", "c", "p", true⟩, .start ⟨"b", "c", "p", true⟩, .statement 0 9,
    .statement 0 9, .statement 1 9, .statement 1 9, .statement 0 9, .statement 1 9],
    fun h => ?_⟩
  have hone := h.once ⟨0, ⟨"a", "c", "p", true⟩, .usertype 2⟩ (by decide)
    ⟨1, ⟨"b", "c", "p", true⟩, .usertype 2⟩ (by decide) rfl
  exact absurd hone.1 (by decide)

end Cards

end DWindow.Php
