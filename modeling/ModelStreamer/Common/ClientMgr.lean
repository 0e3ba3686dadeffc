import Mathlib.Data.List.Sort
import ModelStreamer.Common.ResponseCode
import ModelStreamer.Lib.Counting
import ModelStreamer.Lib.Run

/-!
# Reusing object storage clients

{lit}`ClientMgr` keeps the clients of one plugin for the whole process, so that a streamer
can reuse a client that another one gave back.  Clients are known by their address.  The
manager holds its mutex during every operation, except that {lit}`pop` gives it up while it
constructs a client; the two halves of such a {lit}`pop` are two steps here.

What a client was configured with is left open: the model works for every type of
configurations and every {lit}`verify_credentials`.
-/

namespace ModelStreamer
namespace Common

open Lib

/-! ## The manager -/

/-- A client; {lit}`stopped` is its {lit}`_stop` flag. -/
structure Client (κ : Type*) where
  address : Nat
  config : κ
  stopped : Bool
deriving DecidableEq, Repr

/-- {lit}`ClientMgr`: all clients, and the addresses of the unused ones in ascending order. -/
structure ClientMgr (κ : Type*) where
  clients : List (Client κ)
  unused : List Nat
deriving DecidableEq, Repr

namespace ClientMgr

variable {κ : Type*} (verify : κ → κ → Bool)

/-- {lit}`std::set::insert`. -/
def insertUnused (address : Nat) (unused : List Nat) : List Nat :=
  if address ∈ unused then unused else unused.orderedInsert (· ≤ ·) address

/-- The client at an address. -/
def find (clients : List (Client κ)) (address : Nat) : Option (Client κ) :=
  clients.find? fun client => client.address = address

/-- {lit}`_clients.erase(ptr)`. -/
def erase (clients : List (Client κ)) (address : Nat) : List (Client κ) :=
  clients.filter fun client => client.address ≠ address

/-- The loop of {lit}`pop` over the unused clients. -/
def popUnused (config : κ) : List Nat → List (Client κ) →
    Except Failure (Option (Client κ) × ClientMgr κ)
  | [], clients => .ok (none, { clients, unused := [] })
  | address :: unused, clients =>
      match find clients address with
      | none => .error .assertion
      | some client =>
          if verify client.config config then .ok (some client, { clients, unused })
          else popUnused config unused (erase clients address)

/-- The first half of {lit}`pop`: a client to reuse, if there is one. -/
def popReuse (mgr : ClientMgr κ) (config : κ) :
    Except Failure (Option (Client κ) × ClientMgr κ) :=
  popUnused verify config mgr.unused mgr.clients

/-- The second half of {lit}`pop`: a new client joins the table. -/
def popCreate (mgr : ClientMgr κ) (config : κ) (address : Nat) : ClientMgr κ :=
  { mgr with clients := mgr.clients ++ [⟨address, config, false⟩] }

/-- {lit}`push`. -/
def push (mgr : ClientMgr κ) (address : Nat) : ClientMgr κ :=
  { mgr with unused := insertUnused address mgr.unused }

/-- {lit}`clear`: nothing happens while a client is in use. -/
def clear (mgr : ClientMgr κ) : ClientMgr κ :=
  if mgr.unused.length ≠ mgr.clients.length then mgr
  else { clients := [], unused := [] }

/-- {lit}`stop`: every client of the process. -/
def stop (mgr : ClientMgr κ) : ClientMgr κ :=
  { mgr with clients := mgr.clients.map fun client => { client with stopped := true } }

end ClientMgr

/-! ## Streamers -/

/-- How far a streamer is. -/
inductive StreamerPhase where
  | live
  /-- Between its {lit}`stop` and its {lit}`clear`. -/
  | ending
  | ended
deriving DecidableEq, Repr

/-- History: what the manager did to a client. -/
inductive ClientEvent where
  /-- {lit}`pop` returned the client at the address. -/
  | popped (streamer address : Nat) (stopped : Bool)
  /-- {lit}`stop` reached a client that these other live streamers held. -/
  | stopped (streamer address : Nat) (victims : List Nat)
deriving DecidableEq, Repr

/-- The streamers of a process and their clients. -/
structure ClientProcess (κ : Type*) where
  mgr : ClientMgr κ
  phases : List StreamerPhase
  /-- The streamer and the address of every client in use. -/
  held : List (Nat × Nat)
  /-- The pops that are constructing a client. -/
  creating : List (Nat × κ)
  events : List ClientEvent
deriving DecidableEq, Repr

/-- The calls of the streamers. -/
inductive ClientAction (κ : Type*) where
  /-- A streamer is made. -/
  | make
  | pop (streamer : Nat) (config : κ)
  /-- One of the pops that are constructing gets its client at this address. -/
  | create (i address : Nat)
  /-- One of the pops that are constructing throws, and its caller catches the exception. -/
  | fail (i : Nat)
  | push (streamer address : Nat)
  | stop (streamer : Nat)
  | clear (streamer : Nat)
deriving DecidableEq, Repr

namespace ClientProcess

variable {κ : Type*} (verify : κ → κ → Bool)

/-- A process without streamers. -/
def start : ClientProcess κ :=
  { mgr := { clients := [], unused := [] }, phases := [], held := [], creating := [],
    events := [] }

/-- The streamer is in the phase. -/
def isIn (p : ClientProcess κ) (phase : StreamerPhase) (streamer : Nat) : Bool :=
  p.phases[streamer]? = some phase

/-- The live streamers other than the given one that hold the client. -/
def victims (p : ClientProcess κ) (streamer address : Nat) : List Nat :=
  (p.held.filter fun h => h.2 = address && h.1 ≠ streamer && p.isIn .live h.1).map Prod.fst

/-- A streamer that has not ended pops a client. -/
def popStep (p : ClientProcess κ) (streamer : Nat) (config : κ) : Option (ClientProcess κ) :=
  if p.isIn .live streamer || p.isIn .ending streamer then
    match p.mgr.popReuse verify config with
    | .error _ => none
    | .ok (none, mgr) => some { p with mgr, creating := p.creating ++ [(streamer, config)] }
    | .ok (some client, mgr) => some
        { p with
          mgr
          held := p.held ++ [(streamer, client.address)]
          events := p.events ++ [.popped streamer client.address client.stopped] }
  else none

/-- A construction ends, at an address that no client has. -/
def createStep (p : ClientProcess κ) (i address : Nat) : Option (ClientProcess κ) :=
  match p.creating[i]? with
  | none => none
  | some (streamer, config) =>
      if address ∈ p.mgr.clients.map Client.address then none
      else some
        { p with
          mgr := p.mgr.popCreate config address
          creating := p.creating.eraseIdx i
          held := p.held ++ [(streamer, address)]
          events := p.events ++ [.popped streamer address false] }

/-- A construction throws: no client joins the table, and the streamer holds none. -/
def failStep (p : ClientProcess κ) (i : Nat) : Option (ClientProcess κ) :=
  match p.creating[i]? with
  | none => none
  | some _ => some { p with creating := p.creating.eraseIdx i }

/-- A streamer gives back a client that it popped. -/
def pushStep (p : ClientProcess κ) (streamer address : Nat) : Option (ClientProcess κ) :=
  if (streamer, address) ∈ p.held then some
    { p with mgr := p.mgr.push address, held := p.held.erase (streamer, address) }
  else none

/-- A live streamer starts to end. -/
def stopStep (p : ClientProcess κ) (streamer : Nat) : Option (ClientProcess κ) :=
  if p.isIn .live streamer then some
    { p with
      mgr := p.mgr.stop
      phases := p.phases.set streamer .ending
      events := p.events ++ p.mgr.clients.map fun client =>
        .stopped streamer client.address (p.victims streamer client.address) }
  else none

/-- A streamer that gave everything back is gone. -/
def clearStep (p : ClientProcess κ) (streamer : Nat) : Option (ClientProcess κ) :=
  if p.isIn .ending streamer && (p.held.all fun h => h.1 ≠ streamer) &&
      (p.creating.all fun h => h.1 ≠ streamer) then some
    { p with mgr := p.mgr.clear, phases := p.phases.set streamer .ended }
  else none

/-- The transition function of the process. -/
def step (p : ClientProcess κ) : ClientAction κ → Option (ClientProcess κ)
  | .make => some { p with phases := p.phases ++ [.live] }
  | .pop streamer config => p.popStep verify streamer config
  | .create i address => p.createStep i address
  | .fail i => p.failStep i
  | .push streamer address => p.pushStep streamer address
  | .stop streamer => p.stopStep streamer
  | .clear streamer => p.clearStep streamer

end ClientProcess

end Common
end ModelStreamer
