import DWindow.Lib.Runs
import Mathlib.Logic.Function.Basic

/-!
# The renderer that loads in the background

`LibassRenderer` hands its commands to a core that a thread of its own builds.  Until
`m_core` is set `send_command` puts them into a queue, which the loading thread empties
once it has set it; afterwards `send_command` executes them itself.  The renderer is not
destroyed meanwhile.

`send_command` runs under `m_cs`.  The loading thread writes `CAutoLock (&_this->m_cs);`,
which is a lock without a name: it is destroyed at the end of the statement.  So the
thread waits until `m_cs` is free, takes it, gives it back, and does the rest without it.

Every method of the core holds `g_libass_cs` from its first line to its end, so a command
waits until no other one is on the core.  Other owners of that lock, the cores of other
renderers and the thread that loads the fonts, only make it wait longer and are left out.

A step is a stretch of one thread that no other thread can look into; `insert` and `pop`
of the queue have a lock of their own and are one step each.
-/

namespace DWindow.Libass

/-- `command_types`. -/
inductive CommandType
  | loadfile
  | loadmemory
  | loadindex
  | adddata
  | reset
  | nothing
deriving DecidableEq, Repr

/-- `execute_command` calls a method of the core. -/
def CommandType.onCore : CommandType → Bool
  | nothing => false
  | _ => true

structure Command where
  commandType : CommandType
  data : List UInt8
deriving DecidableEq, Repr

/-- A call of `send_command`: its command, and how many calls were in the critical section
before it. -/
structure Call where
  number : Nat
  command : Command
deriving DecidableEq, Repr

def Call.onCore (c : Call) : Bool := c.command.commandType.onCore

/-- Where a thread that calls `send_command` stands: outside, in front of the test of
`m_core`, in front of `insert`, in front of `execute_command`, inside of it, and in front of
the end of the critical section. -/
inductive Sender
  | outside
  | entered (c : Call)
  | inserts (c : Call)
  | calls (c : Call)
  | executes (c : Call)
  | leaves
deriving DecidableEq, Repr

inductive Loader
  | starts
  | locks
  | unlocked
  | pops
  | holds (c : Call)
  | executes (c : Call)
  | finished
deriving DecidableEq, Repr

inductive Owner
  | free
  | sender (i : Nat)
  | loader
deriving DecidableEq, Repr

/-- `LibassRenderer`, its threads, the calls in the order in which they entered their
critical section, and those whose commands have been executed. -/
structure LibassRenderer where
  mCs : Owner
  gLibassCs : Owner
  mCore : Bool
  mCommands : List Call
  senders : Nat → Sender
  loader : Loader
  sent : List Call
  executed : List Call

/-- The thread whose turn it is; a sender that is outside sends this command next. -/
inductive Turn
  | sender (i : Nat) (command : Command)
  | loader
deriving DecidableEq, Repr

namespace LibassRenderer

def create : LibassRenderer := ⟨.free, .free, false, [], fun _ => .outside, .starts, [], []⟩

/-- Sender `i` goes to `p`. -/
def goTo (s : LibassRenderer) (i : Nat) (p : Sender) : LibassRenderer :=
  { s with senders := Function.update s.senders i p }

@[simp] theorem goTo_self (s : LibassRenderer) (i : Nat) (p : Sender) :
    (s.goTo i p).senders i = p := Function.update_self ..

theorem goTo_of_ne (s : LibassRenderer) {i j : Nat} (p : Sender) (h : j ≠ i) :
    (s.goTo i p).senders j = s.senders j := Function.update_of_ne h ..

/-- Nothing keeps the command from being executed. -/
def coreFree (s : LibassRenderer) (c : Call) : Bool := !c.onCore || s.gLibassCs == .free

def enterCore (s : LibassRenderer) (o : Owner) (c : Call) : LibassRenderer :=
  { s with
    gLibassCs := if c.onCore then o else s.gLibassCs
    executed := s.executed ++ [c] }

def leaveCore (s : LibassRenderer) (c : Call) : LibassRenderer :=
  { s with gLibassCs := if c.onCore then .free else s.gLibassCs }

/-- A sender's step in `send_command`; it waits for `m_cs` outside. -/
def stepSender (s : LibassRenderer) (i : Nat) (command : Command) : LibassRenderer :=
  match s.senders i with
  | .outside =>
    if s.mCs = .free then
      { s with mCs := .sender i, sent := s.sent ++ [Call.mk s.sent.length command] }.goTo i
        (.entered ⟨s.sent.length, command⟩)
    else s
  | .entered c => s.goTo i (if s.mCore then .calls c else .inserts c)
  | .inserts c => { s with mCommands := s.mCommands ++ [c] }.goTo i .leaves
  | .calls c => if s.coreFree c then (s.enterCore (.sender i) c).goTo i (.executes c) else s
  | .executes c => (s.leaveCore c).goTo i .leaves
  | .leaves => { s with mCs := .free }.goTo i .outside

/-- A step of `loading_thread`. -/
def stepLoader (s : LibassRenderer) : LibassRenderer :=
  match s.loader with
  | .starts => if s.mCs = .free then { s with mCs := .loader, loader := .locks } else s
  | .locks => { s with mCs := .free, loader := .unlocked }
  | .unlocked => { s with mCore := true, loader := .pops }
  | .pops =>
    match s.mCommands with
    | [] => { s with loader := .finished }
    | c :: commands => { s with mCommands := commands, loader := .holds c }
  | .holds c => if s.coreFree c then { s.enterCore .loader c with loader := .executes c } else s
  | .executes c => { s.leaveCore c with loader := .pops }
  | .finished => s

def step (s : LibassRenderer) : Turn → LibassRenderer
  | .sender i command => s.stepSender i command
  | .loader => s.stepLoader

end LibassRenderer

end DWindow.Libass
