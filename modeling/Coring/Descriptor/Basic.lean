import Mathlib.Data.Int.Notation
import Mathlib.Logic.Function.Basic
import Coring.Framework.Machine

/-!
# The classes that hold a descriptor

Four classes keep a descriptor number of the operating system in a member: `file_descriptor`
(`include/coring/file_descriptor.hpp`), `socket` over it (`socket.hpp`), `connection_base` over
that (`tcp_connection.hpp`), and `acceptor` on its own (`acceptor.hpp`).  The first three share
`fd_`, invalidate it when they are moved from or closed, and request an asynchronous close of a
valid one in the destructor; `acceptor` calls `::close` in its destructor.

A program is a list of the operations on such objects.  The live objects are a list and an
operation names its operand by its position.  What an operation creates and destroys on the way
counts too: the two constructors of `connection_base` that end in `AddrOption{fd_}` find no
constructor of an `AddrOption` from an `int`, and since those of `net::endpoint` are explicit
and that of `socket` is not, the argument is a temporary `socket` made from the number, whose
destructor runs at the end of the initialisation.

The system hands out numbers that are not open.  A requested close is carried out some time
later, in any order, by an action of its own.  A number closed may be handed out again, and
`closes` counts the closes requested or made since it was handed out last.
-/

namespace Coring.Descriptor

/-- The classes `connection_base` is instantiated with. -/
inductive AddrOption
  | empty
  | peerEndpoint
  | localEndpoint
  | socketEndpoints
  deriving Repr, DecidableEq

namespace AddrOption

/-- There is a constructor from a `const socket &`. -/
def fromSocket : AddrOption → Bool
  | socketEndpoints => false
  | _ => true

/-- There is a constructor from one endpoint. -/
def fromEndpoint : AddrOption → Bool
  | socketEndpoints => false
  | _ => true

/-- The constructor from a socket asks the system for an address, and throws if there is none:
`getpeername` and `getsockname` answer with success or not (`found`), and never with success for
an invalid number. -/
def mayAnswer : AddrOption → ℤ → Bool → Bool
  | peerEndpoint, fd, found => found → 0 ≤ fd
  | localEndpoint, fd, found => found → 0 ≤ fd
  | _, _, found => found

end AddrOption

inductive Kind
  | fileDescriptor
  | socket
  | connection (addr : AddrOption)
  | acceptor
  deriving Repr, DecidableEq

namespace Kind

/-- A reference to the object binds to a `socket &&`. -/
def isSocket : Kind → Bool
  | socket => true
  | connection _ => true
  | _ => false

/-- An object of the second kind has a move constructor that takes one of the first. -/
def movesTo : Kind → Kind → Bool
  | acceptor, _ => false
  | _, fileDescriptor => true
  | k, socket => k.isSocket
  | connection a, connection b => a = b
  | _, _ => false

/-- A `connection_base<To>` can be made from the number of such an object, which stays as it
is: by the conversion operator of a `connection` without addresses, and otherwise by the
`operator int` that the three classes over `file_descriptor` have; between two objects of one class
the deleted copy constructor stands before it. -/
def convertsTo : Kind → AddrOption → Bool
  | connection a, addr => a ≠ addr
  | socket, _ => true
  | fileDescriptor, _ => true
  | acceptor, _ => false

end Kind

/-- A live object, with its `fd_` (`listenfd_` for an `acceptor`). -/
structure Object where
  kind : Kind
  fd : ℤ
  deriving Repr, DecidableEq

structure State where
  objects : List Object := []
  /-- The numbers that are open in the system. -/
  opened : ℤ → Bool := fun _ => false
  /-- The close requests not carried out yet. -/
  pending : List ℤ := []
  /-- The closes since the number was obtained. -/
  closes : ℤ → ℕ := fun _ => 0

namespace State

variable (s : State)

/-- The system hands out `d`. -/
def handOut (d : ℤ) : State :=
  { s with opened := Function.update s.opened d true, closes := Function.update s.closes d 0 }

def construct (kind : Kind) (fd : ℤ) : State := { s with objects := s.objects ++ [⟨kind, fd⟩] }

/-- `make_invalid()` on the object at `i`. -/
def makeInvalid (i : ℕ) (o : Object) : State :=
  { s with objects := s.objects.set i { o with fd := -1 } }

def remove (i : ℕ) : State := { s with objects := s.objects.eraseIdx i }

def countClose (fd : ℤ) : State :=
  { s with closes := Function.update s.closes fd (s.closes fd + 1) }

/-- `io_context::close`: a close request is put into the submission queue. -/
def requestClose (fd : ℤ) : State := { s.countClose fd with pending := s.pending ++ [fd] }

/-- `::close`. -/
def closeNow (fd : ℤ) : State :=
  { s.countClose fd with opened := Function.update s.opened fd false }

/-- What the body of `~file_descriptor` does for an object with this `fd_`. -/
def destructor (fd : ℤ) : State := if fd < 0 then s else s.requestClose fd

/-- The initialisation `AddrOption{fd_}` after the base `socket` has taken the number: the
temporary `socket` is destroyed, and if an exception leaves the constructor so is the base. -/
def initAddrOption (addr : AddrOption) (fd : ℤ) (found : Bool) : State :=
  let s := s.destructor fd
  if found then s.construct (.connection addr) fd else s.destructor fd

end State

inductive Action
  /-- `file_descriptor(d)` with `d` from the system. -/
  | newFileDescriptor (d : ℤ)
  /-- `socket(d)`, `make_socket()`, `make_udp_socket()`. -/
  | newSocket (d : ℤ)
  /-- `connection_base(d)`. -/
  | newConnection (addr : AddrOption) (d : ℤ) (found : Bool)
  /-- The constructors of `acceptor`: `::socket` returns `d`, then `::bind` succeeds or the
  constructor throws. -/
  | newAcceptor (d : ℤ) (bound : Bool)
  /-- `connection_base(socket &&)`. -/
  | connectionFromSocket (i : ℕ) (addr : AddrOption) (found : Bool)
  /-- `connection_base(socket &&, endpoint)`, or with two endpoints. -/
  | connectionWithEndpoints (i : ℕ) (addr : AddrOption) (both : Bool)
  /-- The move constructors. -/
  | move (i : ℕ) (kind : Kind)
  /-- `socket(f)` for a `file_descriptor f`, by its `operator int`. -/
  | socketOfNumber (i : ℕ)
  /-- A connection made from the number of another object. -/
  | convert (i : ℕ) (addr : AddrOption) (found : Bool)
  /-- `acceptor::operator file_descriptor`. -/
  | view (i : ℕ)
  | close (i : ℕ)
  | destroy (i : ℕ)
  /-- The system carries out the `j`-th of the pending closes. -/
  | execute (j : ℕ)
  deriving Repr, DecidableEq

/-- The system may return `d`: it is a number that is not open. -/
def State.fresh (s : State) (d : ℤ) : Bool := 0 ≤ d ∧ s.opened d = false

/-- Run `f` on the object at `i` if there is one of a kind that `permitted` accepts. -/
def State.withObject (s : State) (i : ℕ) (permitted : Object → Bool) (f : Object → State) :
    Option State :=
  match s.objects[i]? with
  | some o => if permitted o then some (f o) else none
  | none => none

def step (s : State) : Action → Option State
  | .newFileDescriptor d =>
      if s.fresh d then some ((s.handOut d).construct .fileDescriptor d) else none
  | .newSocket d => if s.fresh d then some ((s.handOut d).construct .socket d) else none
  | .newConnection addr d found =>
      if s.fresh d ∧ addr.fromSocket ∧ addr.mayAnswer d found then
        some ((s.handOut d).initAddrOption addr d found)
      else none
  | .newAcceptor d bound =>
      if s.fresh d then
        -- an exception leaves the constructor without a destructor call, and the number open
        some (if bound then (s.handOut d).construct .acceptor d else s.handOut d)
      else none
  | .connectionFromSocket i addr found =>
      s.withObject i (fun o => o.kind.isSocket && addr.fromSocket && addr.mayAnswer o.fd found)
        fun o => (s.makeInvalid i o).initAddrOption addr o.fd found
  | .connectionWithEndpoints i addr both =>
      s.withObject i (fun o => o.kind.isSocket && (both || addr.fromEndpoint))
        fun o => (s.makeInvalid i o).construct (.connection addr) o.fd
  | .move i kind =>
      s.withObject i (fun o => o.kind.movesTo kind)
        fun o => (s.makeInvalid i o).construct kind o.fd
  | .socketOfNumber i =>
      s.withObject i (fun o => o.kind = .fileDescriptor) fun o => s.construct .socket o.fd
  | .convert i addr found =>
      s.withObject i
        (fun o => o.kind.convertsTo addr && addr.fromSocket && addr.mayAnswer o.fd found)
        fun o => s.initAddrOption addr o.fd found
  | .view i =>
      s.withObject i (fun o => o.kind = .acceptor) fun o => s.construct .fileDescriptor o.fd
  | .close i =>
      s.withObject i (fun o => o.kind ≠ .acceptor) fun o => (s.requestClose o.fd).makeInvalid i o
  | .destroy i =>
      s.withObject i (fun _ => true) fun o =>
        if o.kind = .acceptor then (s.closeNow o.fd).remove i else (s.destructor o.fd).remove i
  | .execute j =>
      match s.pending[j]? with
      | some fd =>
          some { s with
            pending := s.pending.eraseIdx j, opened := Function.update s.opened fd false }
      | none => none

def machine : Machine State Action := ⟨step⟩

end Coring.Descriptor
