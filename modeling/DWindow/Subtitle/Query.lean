import DWindow.Lib.Runs
import Mathlib.Data.Option.Basic

/-!
# Asking for the subtitle of a time

`get_subtitle` answers `S_OK` when the caller has to show something else, with no data
when that is nothing, and `S_FALSE` when it has to keep what it shows.  So what a caller
shows depends on all its calls, and `Shows` says that it is right after the last of them:
what was found for that call's time, and nothing if nothing was found.

`PGSRenderer` and `VobSubRenderer` have the same `get_subtitle` around parsers of their
own.  It remembers the number of the subtitle that it has last drawn, and does not forget
it when it clears the screen.  `shows_iff` says when that does no harm.
-/

namespace DWindow.Subtitle

open Runs

/-- `S_OK` with what is in `out`, or `S_FALSE`. -/
inductive Answer (κ : Type*)
  | update (out : Option κ)
  | same
deriving DecidableEq, Repr

/-- A call of `get_subtitle`; `out` is never `NULL`. -/
structure Call where
  time : Int
  lastTime : Int
deriving DecidableEq, Repr

/-- A renderer, what its caller shows, and the time of the last call, if there was one. -/
structure Caller (ρ κ : Type*) where
  renderer : ρ
  shown : Option κ
  previous : Option Int

variable {ρ κ τ : Type*}

/-- What is shown after an answer. -/
def Answer.shown (before : Option κ) : Answer κ → Option κ
  | .update out => out
  | .same => before

namespace Caller

/-- A caller that shows nothing, before its first call. -/
def start (r : ρ) : Caller ρ κ := ⟨r, none, none⟩

def call (getSubtitle : ρ → Int → Int → ρ × Answer κ) (s : Caller ρ κ) (c : Call) : Caller ρ κ :=
  let (renderer, answer) := getSubtitle s.renderer c.time c.lastTime
  ⟨renderer, answer.shown s.shown, some c.time⟩

/-- The caller shows what is found for its last call. -/
def Shows (name : κ → τ) (found : Int → Option τ) (s : Caller ρ κ) : Prop :=
  s.shown.map name = s.previous.bind found

instance [DecidableEq τ] (name : κ → τ) (found : Int → Option τ) (s : Caller ρ κ) :
    Decidable (s.Shows name found) := inferInstanceAs (Decidable (_ = _))

end Caller

/-- Two times are the ends of a search, and one of them lies in the time of a subtitle. -/
def covers (subStart subEnd start stop : Int) : Bool :=
  (subStart ≤ start && start ≤ subEnd) || (subStart ≤ stop && stop ≤ subEnd)

/-- `E_FAIL`, as an `int`. -/
def E_FAIL : Int := -0x7fffbffb

/-- The number of a subtitle, or `E_FAIL` for none. -/
def code : Option Nat → Int
  | some i => i
  | none => E_FAIL

/-! ## Renderers that remember a number -/

/-- `PGSRenderer` or `VobSubRenderer`, over its parser. -/
structure IndexRenderer (π : Type*) where
  mParser : π
  mLastFound : Int

namespace IndexRenderer

variable {π : Type*}

/-- `get_subtitle`, over what `find_subtitle` returns and the picture that it leaves in
`tmp`, if `tmp` has positive times and a picture. -/
def getSubtitle (findSubtitle : π → Int → Int → Int × Option κ) (r : IndexRenderer π)
    (time lastTime : Int) : IndexRenderer π × Answer κ :=
  let (found, tmp) := findSubtitle r.mParser time time
  if found = r.mLastFound ∧ lastTime ≠ -1 then (r, .same)
  else
    match tmp with
    | some out => ({ r with mLastFound := found }, .update (some out))
    | none => (r, .update none)

/-- A call that finds a subtitle finds one that is drawn; and when it is the one that was drawn
last, the call before has found it as well. -/
def InStep (found : Int → Option Nat) (picture : Nat → Option κ) (s : Caller (IndexRenderer π) κ)
    (c : Call) : Prop :=
  (∀ i ∈ found c.time, (picture i).isSome = true) ∧
  (c.lastTime ≠ -1 → code (found c.time) = s.renderer.mLastFound →
    s.previous.bind found = found c.time)

instance (found : Int → Option Nat) (picture : Nat → Option κ) (s : Caller (IndexRenderer π) κ)
    (c : Call) : Decidable (InStep found picture s c) :=
  inferInstanceAs (Decidable ((∀ i ∈ found c.time, _) ∧ (_ → _ → _)))

/-- What `findSubtitle` finds has a number, and its picture carries the number. -/
structure Finds (findSubtitle : π → Int → Int → Int × Option κ) (name : κ → Nat) (parser : π)
    (found : Int → Option Nat) (picture : Nat → Option κ) : Prop where
  finds : ∀ time, findSubtitle parser time time = (code (found time), (found time).bind picture)
  name_picture : ∀ i, ∀ out ∈ picture i, name out = i

/-- What a call keeps: the caller shows what was found, and that has been drawn. -/
structure Right (name : κ → Nat) (parser : π) (found : Int → Option Nat)
    (picture : Nat → Option κ) (s : Caller (IndexRenderer π) κ) : Prop where
  parser_eq : s.renderer.mParser = parser
  shows : s.Shows name found
  drawn : ∀ i, s.shown.map name = some i → (picture i).isSome = true

variable {findSubtitle : π → Int → Int → Int × Option κ} {name : κ → Nat} {parser : π}
  {found : Int → Option Nat} {picture : Nat → Option κ} {s : Caller (IndexRenderer π) κ}

theorem call_cases (h : Finds findSubtitle name parser found picture)
    (hs : s.renderer.mParser = parser) (c : Call) :
    (code (found c.time) = s.renderer.mLastFound ∧ c.lastTime ≠ -1 ∧
      s.call (getSubtitle findSubtitle) c = ⟨s.renderer, s.shown, some c.time⟩) ∨
    (¬ (code (found c.time) = s.renderer.mLastFound ∧ c.lastTime ≠ -1) ∧
      ∃ n, s.call (getSubtitle findSubtitle) c =
        ⟨⟨parser, n⟩, (found c.time).bind picture, some c.time⟩) := by
  subst hs
  unfold Caller.call getSubtitle
  rw [h.finds]
  dsimp only
  by_cases hlast : code (found c.time) = s.renderer.mLastFound ∧ c.lastTime ≠ -1
  · rw [if_pos hlast]
    exact .inl ⟨hlast.1, hlast.2, rfl⟩
  · rw [if_neg hlast]
    cases hout : (found c.time).bind picture with
    | none => exact .inr ⟨hlast, s.renderer.mLastFound, rfl⟩
    | some out => exact .inr ⟨hlast, code (found c.time), rfl⟩

theorem map_name_bind (h : Finds findSubtitle name parser found picture) {o : Option Nat}
    (hpicture : ∀ i ∈ o, (picture i).isSome = true) : (o.bind picture).map name = o := by
  cases o with
  | none => rfl
  | some i =>
    obtain ⟨out, hout⟩ := Option.isSome_iff_exists.mp (hpicture i rfl)
    rw [Option.bind_some, hout, Option.map_some, h.name_picture i out hout]

theorem Right.call (h : Finds findSubtitle name parser found picture)
    (hs : Right name parser found picture s) {c : Call} (hok : InStep found picture s c) :
    Right name parser found picture (s.call (getSubtitle findSubtitle) c) := by
  rcases call_cases h hs.parser_eq c with ⟨hlast, hlater, heq⟩ | ⟨_, n, heq⟩
  · rw [heq]
    exact ⟨hs.parser_eq, hs.shows.trans (hok.2 hlater hlast), hs.drawn⟩
  · rw [heq]
    have hname := map_name_bind h hok.1
    refine ⟨rfl, hname, fun i hi => ?_⟩
    exact hok.1 i (hname.symm.trans hi)

theorem Right.inStep (h : Finds findSubtitle name parser found picture)
    (hs : Right name parser found picture s) {c : Call}
    (hafter : (s.call (getSubtitle findSubtitle) c).Shows name found) :
    InStep found picture s c := by
  rcases call_cases h hs.parser_eq c with ⟨_, _, heq⟩ | ⟨hnew, n, heq⟩
  · rw [heq] at hafter
    have hshown : s.shown.map name = found c.time := hafter
    exact ⟨fun i hi => hs.drawn i (hshown.trans hi), fun _ _ => hs.shows.symm.trans hshown⟩
  · rw [heq] at hafter
    have hshown : ((found c.time).bind picture).map name = found c.time := hafter
    refine ⟨fun i hi => ?_, fun hlater hlast => absurd ⟨hlast, hlater⟩ hnew⟩
    have hi' : found c.time = some i := hi
    rw [hi', Option.bind_some] at hshown
    cases hout : picture i with
    | none =>
      rw [hout] at hshown
      cases hshown
    | some out => rfl

/-- **The caller shows the right subtitle** after every call, if and only if every call is
in step. -/
theorem shows_iff (h : Finds findSubtitle name parser found picture) (lastFound : Int)
    (calls : List Call) :
    (∀ k, (run (Caller.call (getSubtitle findSubtitle)) (.start ⟨parser, lastFound⟩)
      (calls.take k)).Shows name found) ↔
    Along (Caller.call (getSubtitle findSubtitle)) (InStep found picture)
      (.start ⟨parser, lastFound⟩) calls :=
  forall_take_iff_along_of (Right name parser found picture) (fun _ hs => hs.shows)
    (fun _ _ hs hok => hs.call h hok) (fun _ _ hs hafter => hs.inStep h hafter) calls
    (.start ⟨parser, lastFound⟩) ⟨rfl, rfl, fun _ hi => nomatch hi⟩

end IndexRenderer

end DWindow.Subtitle
