import CppPrivate.Lib.Nesting

/-! The handler chain of a context. A handler runs against a world of its own, which stands for
all it can read and write, and calls the functions that drive the chain. -/
namespace CppPrivate.Http

/-- What a handler does from some point on: it finishes, or calls a function of the context and
goes on with what it then finds. -/
inductive Prog (σ : Type*) where
  | finish (world : σ)
  | Next (world : σ) (k : σ → Prog σ)
  | Abort (world : σ) (k : Prog σ)
  | IsAborted (world : σ) (k : Bool → Prog σ)

abbrev HandlerFunc (σ : Type*) := σ → Prog σ

abbrev HandlersChain (σ : Type*) := List (HandlerFunc σ)

def abortIndex : Nat := 127 / 2

/-- What can be observed of a run: handlers starting and finishing, calls of `Next` entered and
left. -/
inductive Event where
  | start (i : Nat)
  | finish (i : Nat)
  | enter
  | leave
deriving DecidableEq

/-- The part of a context that drives the chain. -/
structure ChainState (σ : Type*) where
  index : UInt64
  world : σ
  log : List Event

namespace ChainState
variable {σ : Type*}

/-- A new context; its index is -1, converted to an unsigned type. -/
def new (world : σ) : ChainState σ := ⟨-1, world, []⟩

def note (s : ChainState σ) (e : Event) : ChainState σ := { s with log := s.log ++ [e] }

def setWorld (s : ChainState σ) (world : σ) : ChainState σ := { s with world }

def advance (s : ChainState σ) : ChainState σ := { s with index := s.index + 1 }

def Abort (s : ChainState σ) : ChainState σ := { s with index := UInt64.ofNat abortIndex }

def IsAborted (s : ChainState σ) : Bool := decide (s.index ≥ UInt64.ofNat abortIndex)

end ChainState

variable {σ : Type*}

@[simp] theorem log_advance (s : ChainState σ) : s.advance.log = s.log := rfl

@[simp] theorem log_setWorld (s : ChainState σ) (world : σ) : (s.setWorld world).log = s.log := rfl

@[simp] theorem log_Abort (s : ChainState σ) : s.Abort.log = s.log := rfl

def Prog.run (next : ChainState σ → Option (ChainState σ)) :
    Prog σ → ChainState σ → Option (ChainState σ)
  | .finish world, s => some (s.setWorld world)
  | .Next world k, s => (next (s.setWorld world)).bind fun t => (k t.world).run next t
  | .Abort world k, s => k.run next (s.setWorld world).Abort
  | .IsAborted world k, s => (k s.IsAborted).run next (s.setWorld world)

/-- `Next`, given what its loop does. -/
def nextWith (loop : ChainState σ → Option (ChainState σ)) (s : ChainState σ) :
    Option (ChainState σ) :=
  (loop (s.note .enter).advance).map (·.note .leave)

/-- The loop of `Next`. It gives up when the fuel is used up. -/
def loop (handlers : HandlersChain σ) : Nat → ChainState σ → Option (ChainState σ)
  | 0, _ => none
  | fuel + 1, s =>
    match handlers[s.index.toNat]? with
    | none => some s
    | some handler =>
      ((handler s.world).run (nextWith (loop handlers fuel)) (s.note (.start s.index.toNat))).bind
        fun t => loop handlers fuel (t.note (.finish s.index.toNat)).advance

def Next (handlers : HandlersChain σ) (fuel : Nat) (s : ChainState σ) : Option (ChainState σ) :=
  nextWith (loop handlers fuel) s

/-- The handler never calls `Abort`, whatever it finds. -/
def Prog.NeverAborts : Prog σ → Prop
  | .finish _ => True
  | .Next _ k => ∀ world, (k world).NeverAborts
  | .Abort _ _ => False
  | .IsAborted _ k => ∀ b, (k b).NeverAborts

end CppPrivate.Http
