/-
# `BitswapAuth.PeerManager.WantManager` — what each peer has been asked for

`peerWantManager`: for every connected peer the want-blocks and want-haves it
was sent, the want-haves that were broadcast to everyone, and an index from
wants to the peers they were sent to.  Nothing is sent to a peer that it has
been sent before, and a cancel goes to those peers only that were sent the want.

The methods call the peers' message queues.  Here they return the calls they
make, in order, each with the peer whose queue it is made on.
-/
import BitswapAuth.Auth

namespace BitswapAuth

open Lib

/-- The calls the peer manager makes on a `PeerQueue` to change its wants. -/
inductive QueueCall where
  | addBroadcastWantHaves (wantHaves : List Want)
  | addWants (wantBlocks wantHaves : List Want)
  | addCancels (cancelKs : List Want)
  deriving DecidableEq

/-- Calls with the peers on whose queues they are made. -/
abbrev Calls := List (PeerID × QueueCall)

/-- The calls made on one peer's queue. -/
def callsTo (calls : Calls) (p : PeerID) : List QueueCall :=
  calls.filterMap fun c => if c.1 = p then some c.2 else none

/-- `peerWant`. -/
structure PeerWant where
  wantBlocks : GoSet Want
  wantHaves : GoSet Want

namespace PeerWant

/-- The wants of a peer that was sent none. -/
def new : PeerWant := ⟨∅, ∅⟩

/-- The want was sent to the peer, as a want-block or a want-have. -/
def has (pws : PeerWant) (w : Want) : Bool := pws.wantBlocks.has w || pws.wantHaves.has w

theorem has_eq_true {pws : PeerWant} {w : Want} :
    pws.has w = true ↔ w ∈ pws.wantBlocks ∨ w ∈ pws.wantHaves := by
  simp [has]

end PeerWant

/-- `peerWantManager`. -/
structure PeerWantManager where
  peerWants : GoMap PeerID PeerWant
  wantPeers : GoMap Want (GoSet PeerID)
  broadcastWants : GoSet Want
  wantGauge : Int
  wantBlockGauge : Int

/-- `wantPeerCnts`. -/
structure WantPeerCnts where
  wantBlock : Nat
  wantHave : Nat
  isBroadcast : Bool

/-- `wantPeerCnts.wanted`. -/
def WantPeerCnts.wanted (c : WantPeerCnts) : Bool :=
  c.wantBlock > 0 || c.wantHave > 0 || c.isBroadcast

namespace PeerWantManager

/-- `newPeerWantManager`. -/
def new : PeerWantManager := ⟨∅, ∅, ∅, 0, 0⟩

/-- The peers that the index has for a want. -/
def peersOf (pwm : PeerWantManager) (w : Want) : List PeerID :=
  ((pwm.wantPeers.lookup w).getD ∅).keys

/-- `wantPeerCounts`. -/
def wantPeerCounts (pwm : PeerWantManager) (w : Want) : WantPeerCnts :=
  let sent := (pwm.peersOf w).filterMap pwm.peerWants.lookup
  { wantBlock := sent.countP (·.wantBlocks.has w)
    wantHave := sent.countP (fun pws => !pws.wantBlocks.has w && pws.wantHaves.has w)
    isBroadcast := pwm.broadcastWants.has w }

/-- `addPeer`, with the order in which the broadcast wants are listed. -/
def addPeer (pwm : PeerWantManager) (p : PeerID) (o : RangeOrder) : PeerWantManager × Calls :=
  if p ∈ pwm.peerWants then (pwm, [])
  else
    ({ pwm with peerWants := pwm.peerWants.insert p .new },
      if pwm.broadcastWants.len > 0 then
        [(p, .addBroadcastWantHaves (o.range pwm.broadcastWants.keys))]
      else [])

/-! ### `removePeer` -/

/-- The clean-up of one want-block. -/
def dropWantBlock (p : PeerID) (pwm : PeerWantManager) (w : Want) : PeerWantManager :=
  let pwm := { pwm with wantPeers := pwm.wantPeers.unlink w p }
  let peerCounts := pwm.wantPeerCounts w
  { pwm with
    wantBlockGauge :=
      if peerCounts.wantBlock = 0 then pwm.wantBlockGauge - 1 else pwm.wantBlockGauge
    wantGauge := if peerCounts.wanted then pwm.wantGauge else pwm.wantGauge - 1 }

/-- The clean-up of one want-have. -/
def dropWantHave (p : PeerID) (pwm : PeerWantManager) (w : Want) : PeerWantManager :=
  let pwm := { pwm with wantPeers := pwm.wantPeers.unlink w p }
  { pwm with
    wantGauge := if (pwm.wantPeerCounts w).wanted then pwm.wantGauge else pwm.wantGauge - 1 }

/-- `removePeer`, with the orders in which the two sets are visited. -/
def removePeer (pwm : PeerWantManager) (p : PeerID) (ob oh : RangeOrder) : PeerWantManager :=
  match pwm.peerWants.lookup p with
  | none => pwm
  | some pws =>
      let pwm := (ob.range pws.wantBlocks.keys).foldl (dropWantBlock p) pwm
      let pwm := (oh.range pws.wantHaves.keys).foldl (dropWantHave p) pwm
      { pwm with peerWants := pwm.peerWants.erase p }

/-! ### `broadcastWantHaves` -/

/-- One want to be broadcast: recorded, and to be sent, unless it is already. -/
def recordBroadcast (s : PeerWantManager × List Want) (w : Want) : PeerWantManager × List Want :=
  if s.1.broadcastWants.has w then s
  else
    ({ s.1 with
        broadcastWants := s.1.broadcastWants.add w
        -- no peer has a pending want for the key
        wantGauge := if w ∈ s.1.wantPeers then s.1.wantGauge else s.1.wantGauge + 1 },
      s.2 ++ [w])

/-- The wants of a broadcast that one peer has not been sent. -/
def peerUnsent (unsent : List Want) (pws : PeerWant) : List Want :=
  unsent.filter fun w => !pws.has w

/-- `broadcastWantHaves`, with the order in which the peers are visited. -/
def broadcastWantHaves (pwm : PeerWantManager) (wantHaves : List Want) (o : RangeOrder) :
    PeerWantManager × Calls :=
  let s := wantHaves.foldl recordBroadcast (pwm, [])
  (s.1, (o.range s.1.peerWants.pairs).filterMap fun e =>
    let unsent := peerUnsent s.2 e.2
    if unsent.isEmpty then none else some (e.1, .addBroadcastWantHaves unsent))

/-! ### `sendWants` -/

/-- One want-block to be sent to a peer, unless it was. -/
def sendWantBlock (p : PeerID) (s : PeerWantManager × List Want) (c : Want) :
    PeerWantManager × List Want :=
  match s.1.peerWants.lookup p with
  | none => s
  | some pws =>
      if pws.wantBlocks.has c then s
      else
        let peerCounts := s.1.wantPeerCounts c
        ({ s.1 with
            wantBlockGauge :=
              if peerCounts.wantBlock = 0 then s.1.wantBlockGauge + 1 else s.1.wantBlockGauge
            wantGauge := if peerCounts.wanted then s.1.wantGauge else s.1.wantGauge + 1
            -- the want is no longer recorded as a want-have
            peerWants := s.1.peerWants.insert p ⟨pws.wantBlocks.add c, pws.wantHaves.remove c⟩
            wantPeers := s.1.wantPeers.link c p },
          s.2 ++ [c])

/-- One want-have to be sent to a peer, unless it was, or is broadcast. -/
def sendWantHave (p : PeerID) (s : PeerWantManager × List Want) (c : Want) :
    PeerWantManager × List Want :=
  match s.1.peerWants.lookup p with
  | none => s
  | some pws =>
      if s.1.broadcastWants.has c then s
      else if pws.has c then s
      else
        ({ s.1 with
            wantGauge := if (s.1.wantPeerCounts c).wanted then s.1.wantGauge else s.1.wantGauge + 1
            peerWants := s.1.peerWants.insert p ⟨pws.wantBlocks, pws.wantHaves.add c⟩
            wantPeers := s.1.wantPeers.link c p },
          s.2 ++ [c])

/-- `sendWants`. -/
def sendWants (pwm : PeerWantManager) (p : PeerID) (wantBlocks wantHaves : List Want) :
    PeerWantManager × Calls :=
  if p ∈ pwm.peerWants then
    let b := wantBlocks.foldl (sendWantBlock p) (pwm, [])
    let h := wantHaves.foldl (sendWantHave p) (b.1, [])
    (h.1, [(p, .addWants b.2 h.2)])
  else (pwm, [])

/-! ### `sendCancels` -/

/-- One key to be cancelled at one peer: taken out of what it was sent, and added
to its cancels unless it is a broadcast want, which is there already. -/
def cancelKey (broadcastWants : GoSet Want) (s : PeerWant × List Want) (c : Want) :
    PeerWant × List Want :=
  if s.1.has c then
    (⟨s.1.wantBlocks.remove c, s.1.wantHaves.remove c⟩,
      if broadcastWants.has c then s.2 else s.2 ++ [c])
  else s

/-- The closure `send` of `sendCancels`, for one peer. -/
def sendCancelsTo (broadcastCancels cancelKs : List Want) (s : PeerWantManager × Calls)
    (p : PeerID) : PeerWantManager × Calls :=
  match s.1.peerWants.lookup p with
  | none => s
  | some pws =>
      let r := cancelKs.foldl (cancelKey s.1.broadcastWants) (pws, broadcastCancels)
      ({ s.1 with peerWants := s.1.peerWants.insert p r.1 },
        if r.2.isEmpty then s.2 else s.2 ++ [(p, .addCancels r.2)])

/-- The gauges for one cancelled key, from the counts taken before. -/
def cancelGauges (counts : Want → WantPeerCnts) (pwm : PeerWantManager) (c : Want) :
    PeerWantManager :=
  { pwm with
    wantBlockGauge :=
      if (counts c).wantBlock > 0 then pwm.wantBlockGauge - 1 else pwm.wantBlockGauge
    wantGauge := if (counts c).wanted then pwm.wantGauge - 1 else pwm.wantGauge }

/-- The peers a cancel is looked at for: all of them if a broadcast want is being
cancelled, else those the index has for one of the keys. -/
def cancelPeers (pwm : PeerWantManager) (broadcastCancels cancelKs : List Want) : List PeerID :=
  if broadcastCancels.isEmpty then
    (GoSet.ofList (cancelKs.flatMap pwm.peersOf)).keys
  else pwm.peerWants.keys

/-- `sendCancels`, with the order in which the peers are visited. -/
def sendCancels (pwm : PeerWantManager) (cancelKs : List Want) (o : RangeOrder) :
    PeerWantManager × Calls :=
  if cancelKs.isEmpty then (pwm, [])
  else
    let broadcastCancels := cancelKs.filter pwm.broadcastWants.has
    let s := (o.range (pwm.cancelPeers broadcastCancels cancelKs)).foldl
      (sendCancelsTo broadcastCancels cancelKs) (pwm, [])
    let g := cancelKs.foldl (cancelGauges pwm.wantPeerCounts) s.1
    ({ g with
        broadcastWants := broadcastCancels.foldl GoSet.remove g.broadcastWants
        wantPeers := cancelKs.foldl (fun m c => m.erase c) g.wantPeers }, s.2)

/-- `getWants`, with the orders in which the two maps are visited. -/
def getWants (pwm : PeerWantManager) (ob ow : RangeOrder) : List Want :=
  ob.range pwm.broadcastWants.keys ++
    (ow.range pwm.wantPeers.keys).filter fun w => !pwm.broadcastWants.has w

end PeerWantManager

end BitswapAuth
