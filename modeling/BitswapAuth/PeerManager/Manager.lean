/-
# `BitswapAuth.PeerManager.Manager` — the peers, their queues, and who follows them

`PeerManager`: a queue for every connected peer, the record of what was sent to
each (`PeerWantManager`), and the sessions that want to hear when a peer comes
or goes.  The queues are a parameter; all the manager does with them is to make
one for a peer that connects and to pass on the calls of its want manager.
-/
import BitswapAuth.PeerManager.WantManager

namespace BitswapAuth

open Lib

/-- The ID of a session. -/
abbrev SessionID := UInt64

/-- `PeerQueue` with its factory: a queue is created for a peer and called. -/
class PeerQueue (Q : Type) where
  create : PeerID → Q
  call : Q → QueueCall → Q

/-- `PeerManager`. -/
structure PeerManager (Q : Type) where
  peerQueues : GoMap PeerID Q
  pwm : PeerWantManager
  sessions : GoSet SessionID
  peerSessions : GoMap PeerID (GoSet SessionID)

/-- A call of `SignalAvailability`. -/
structure Signal where
  session : SessionID
  peer : PeerID
  available : Bool
  deriving DecidableEq

namespace PeerManager

variable {Q : Type}

/-- `New`. -/
def new : PeerManager Q := ⟨∅, .new, ∅, ∅⟩

/-- `signalAvailability`: the signals to the sessions that follow the peer. -/
def signalAvailability (pm : PeerManager Q) (p : PeerID) (isConnected : Bool) (o : RangeOrder) :
    List Signal :=
  match pm.peerSessions.lookup p with
  | none => []
  | some sesIds =>
      ((o.range sesIds.keys).filter pm.sessions.has).map fun sesId => ⟨sesId, p, isConnected⟩

/-- `RegisterSession`. -/
def registerSession (pm : PeerManager Q) (p : PeerID) (s : SessionID) : PeerManager Q :=
  { pm with sessions := pm.sessions.add s, peerSessions := pm.peerSessions.link p s }

/-- `CurrentWants`, the local wantlist. -/
def currentWants (pm : PeerManager Q) (ob ow : RangeOrder) : List Want := pm.pwm.getWants ob ow

variable [PeerQueue Q]

/-- The calls of the want manager made on the queues. -/
def deliver (queues : GoMap PeerID Q) (calls : Calls) : GoMap PeerID Q :=
  calls.foldl (fun qs c => qs.modify c.1 (PeerQueue.call · c.2)) queues

/-- The result of an operation of the want manager, with its calls made. -/
def applied (pm : PeerManager Q) (r : PeerWantManager × Calls) : PeerManager Q :=
  { pm with pwm := r.1, peerQueues := deliver pm.peerQueues r.2 }

/-- `getOrCreate`. -/
def getOrCreate (pm : PeerManager Q) (p : PeerID) : PeerManager Q :=
  if p ∈ pm.peerQueues then pm
  else { pm with peerQueues := pm.peerQueues.insert p (PeerQueue.create p) }

/-- `Connected`, with the signals it sends. -/
def connected (pm : PeerManager Q) (p : PeerID) (ob os : RangeOrder) :
    PeerManager Q × List Signal :=
  let pm := pm.getOrCreate p
  let pm := pm.applied (pm.pwm.addPeer p ob)
  (pm, pm.signalAvailability p true os)

/-- `Disconnected`, with the signals it sends. -/
def disconnected (pm : PeerManager Q) (p : PeerID) (ob oh os : RangeOrder) :
    PeerManager Q × List Signal :=
  if p ∈ pm.peerQueues then
    ({ pm with peerQueues := pm.peerQueues.erase p, pwm := pm.pwm.removePeer p ob oh },
      pm.signalAvailability p false os)
  else (pm, [])

/-- `BroadcastWantHaves`. -/
def broadcastWantHaves (pm : PeerManager Q) (wantHaves : List Want) (o : RangeOrder) :
    PeerManager Q :=
  pm.applied (pm.pwm.broadcastWantHaves wantHaves o)

/-- `SendWants`. -/
def sendWants (pm : PeerManager Q) (p : PeerID) (wantBlocks wantHaves : List Want) :
    PeerManager Q :=
  if p ∈ pm.peerQueues then pm.applied (pm.pwm.sendWants p wantBlocks wantHaves) else pm

/-- `SendCancels`. -/
def sendCancels (pm : PeerManager Q) (cancelKs : List Want) (o : RangeOrder) : PeerManager Q :=
  pm.applied (pm.pwm.sendCancels cancelKs o)

/-! ## The connected peers -/

theorem mem_deliver {q : PeerID} : ∀ (calls : Calls) (queues : GoMap PeerID Q),
    q ∈ deliver queues calls ↔ q ∈ queues
  | [], _ => Iff.rfl
  | c :: calls, queues => by
      show q ∈ deliver (queues.modify c.1 (PeerQueue.call · c.2)) calls ↔ _
      rw [mem_deliver calls, GoMap.mem_modify]

theorem mem_peerQueues_connected {pm : PeerManager Q} {p q : PeerID} {ob os : RangeOrder} :
    q ∈ (pm.connected p ob os).1.peerQueues ↔ q = p ∨ q ∈ pm.peerQueues := by
  show q ∈ deliver _ _ ↔ _
  rw [mem_deliver]
  rw [getOrCreate]
  split
  · rename_i hp
    exact ⟨.inr, fun h => h.elim (fun h => h ▸ hp) id⟩
  · exact AList.mem_insert _

omit [PeerQueue Q] in
theorem mem_peerQueues_disconnected {pm : PeerManager Q} {p q : PeerID} {ob oh os : RangeOrder} :
    q ∈ (pm.disconnected p ob oh os).1.peerQueues ↔ q ≠ p ∧ q ∈ pm.peerQueues := by
  rw [disconnected]
  split
  · exact AList.mem_erase
  · rename_i hp
    exact ⟨fun h => ⟨fun he => hp (he ▸ h), h⟩, fun h => h.2⟩

theorem mem_peerQueues_sendWants {pm : PeerManager Q} {p q : PeerID} {bs hs : List Want} :
    q ∈ (pm.sendWants p bs hs).peerQueues ↔ q ∈ pm.peerQueues := by
  rw [sendWants]
  split
  · exact mem_deliver _ _
  · exact Iff.rfl

end PeerManager

end BitswapAuth
