/-
# `BitswapAuth.Session.Session` — the run loop of a session

`Session`: one loop that takes operations from a channel, and the want sender,
which runs in a loop of its own and takes changes from another.  The loop is the
only one to touch `sessionWants`; it tells the interest manager, the sender and
the peer manager what the session wants.

A step of the loop ends where it sends on a channel, takes a lock of the
interest manager or reads what the sender writes, so that the steps of other
goroutines can come in between; `Loop` is the place where it then is.  The
goroutines a session starts are here too, as the lists of what they still have
to do: operations and changes that found their channel full, and searches for
providers.  The wants given to `PeerManager.BroadcastWantHaves` are returned.
-/
import BitswapAuth.Session.Wants
import BitswapAuth.Session.Interest
import BitswapAuth.Session.WantSender
import BitswapAuth.Lib.Timer

namespace BitswapAuth

open Lib

namespace Session

/-- `opType`. -/
inductive OpType where
  | opReceive
  | opWant
  | opCancel
  | opBroadcast
  | opWantsSent
  deriving DecidableEq

/-- `op`. -/
structure Op where
  op : OpType
  keys : List Cid := []
  wants : List Want := []
  deriving DecidableEq

/-- `latencyTracker`. -/
structure LatencyTracker where
  totalLatency : Nat
  count : Nat

namespace LatencyTracker

/-- `hasLatency`. -/
def hasLatency (lt : LatencyTracker) : Bool := lt.totalLatency > 0 && lt.count > 0

/-- `averageLatency`. -/
def averageLatency (lt : LatencyTracker) : Nat := lt.totalLatency / lt.count

/-- `receiveUpdate`. -/
def receiveUpdate (lt : LatencyTracker) (count totalLatency : Nat) : LatencyTracker :=
  ⟨lt.totalLatency + totalLatency, lt.count + count⟩

end LatencyTracker

/-- The size of `incoming`. -/
def incomingSize : Nat := 128

/-- Where the run loop is: at its `select`, or in an operation before the sender is
told of it or before the first wants are sent. -/
inductive Loop where
  | select
  | adding (newks : List Want)
  | sending
  | cancelling (wants : List Want)
  deriving DecidableEq

end Session

open Session in
/-- `Session`. -/
structure Session where
  id : SessionID
  sw : SessionWants
  sws : SessionWantSender
  latencyTrkr : LatencyTracker
  incoming : List Op
  changes : List Change
  -- the timers, set for a delay
  idleTick : Timer Nat
  periodicSearchTimer : Timer Nat
  baseTickDelay : Nat
  consecutiveTicks : Nat
  initialSearchDelay : Nat
  loop : Loop
  -- goroutines that wait for room in a channel, or for providers
  blockedOps : List Op
  blockedChanges : List Change
  searches : List Want
  -- the context of the session is done
  done : Bool

namespace Session

/-- `New`. -/
def new (id : SessionID) (rng : Nat → Draw) (initialSearchDelay nextWaitTime : Nat) : Session where
  id := id
  sw := .new broadcastLiveWantsLimit
  sws := .new id rng
  latencyTrkr := ⟨0, 0⟩
  incoming := []
  changes := []
  idleTick := .new initialSearchDelay
  periodicSearchTimer := .new nextWaitTime
  -- half a second
  baseTickDelay := 500000000
  consecutiveTicks := 0
  initialSearchDelay := initialSearchDelay
  loop := .select
  blockedOps := []
  blockedChanges := []
  searches := []
  done := false

/-- There is room in `incoming`. -/
def HasRoom (s : Session) : Prop := s.incoming.length < incomingSize

instance (s : Session) : Decidable s.HasRoom := inferInstanceAs (Decidable (_ < _))

/-- There is room in the sender's `changes`. -/
def SenderHasRoom (s : Session) : Prop := s.changes.length < changesBufferSize

instance (s : Session) : Decidable s.SenderHasRoom := inferInstanceAs (Decidable (_ < _))

/-- Both loops have gone through all that was sent to them. -/
def Drained (s : Session) : Prop := s.loop = .select ∧ s.incoming = [] ∧ s.changes = []

instance (s : Session) : Decidable s.Drained := inferInstanceAs (Decidable (_ ∧ _ ∧ _))

/-- An operation sent on `incoming`. -/
def enqueue (s : Session) (o : Op) : Session := { s with incoming := s.incoming ++ [o] }

/-- `nonBlockingEnqueue`. -/
def nonBlockingEnqueue (s : Session) (o : Op) : Session :=
  if s.HasRoom then s.enqueue o else { s with blockedOps := s.blockedOps ++ [o] }

/-- `addChange`, once there is room. -/
def addChange (s : Session) (c : Change) : Session := { s with changes := s.changes ++ [c] }

/-- `SignalAvailability`, with `addChangeNonBlocking`. -/
def signalAvailability (s : Session) (p : PeerID) (isAvailable : Bool) : Session :=
  let c : Change := { availability := ⟨p, isAvailable⟩ }
  if s.SenderHasRoom then s.addChange c else { s with blockedChanges := s.blockedChanges ++ [c] }

/-- `onWantsSent`. -/
def onWantsSent (s : Session) (wantBlocks wantHaves : List Want) : Session :=
  s.nonBlockingEnqueue { op := .opWantsSent, wants := wantBlocks ++ wantHaves }

/-- `onPeersExhausted`. -/
def onPeersExhausted (s : Session) (ks : List Want) : Session :=
  s.nonBlockingEnqueue { op := .opBroadcast, wants := ks }

/-- `findMorePeers`: the search, in a goroutine. -/
def findMorePeers (s : Session) (c : Want) : Session := { s with searches := s.searches ++ [c] }

/-- `resetIdleTick`. -/
def resetIdleTick (s : Session) : Session :=
  let tickDelay :=
    if s.latencyTrkr.hasLatency then s.baseTickDelay + 3 * s.latencyTrkr.averageLatency
    else s.initialSearchDelay
  { s with idleTick := s.idleTick.reset (tickDelay * (1 + s.consecutiveTicks)) }

/-- The wants to broadcast.  An idle tick gives none, and all the live ones are
taken. -/
def toBroadcast (now : Time) (s : Session) : Option (List Want) → SessionWants × List Want
  | some ws => (s.sw, ws)
  | none => s.sw.prepareBroadcast now

/-- The search for providers of the first want; on consecutive ticks the periodic
search is relied on. -/
def searchFirst (s : Session) : List Want → Session
  | [] => s
  | c :: _ => if s.consecutiveTicks = 0 then s.findMorePeers c else s

/-- A consecutive tick is recorded if there are live wants. -/
def countTick (s : Session) : Session :=
  if s.sw.hasLiveWants then { s with consecutiveTicks := s.consecutiveTicks + 1 } else s

/-- `broadcast`, and the wants that are broadcast. -/
def broadcast (now : Time) (s : Session) (wants : Option (List Want)) : Session × List Want :=
  let r := s.toBroadcast now wants
  ((({ s with sw := r.1 } : Session).searchFirst r.2).resetIdleTick.countTick, r.2)

/-- `handlePeriodicSearch`, for the random index and the next delay. -/
def handlePeriodicSearch (s : Session) (i nextWaitTime : Nat) : Session × List Want :=
  let randomWant := s.sw.randomLiveWant i
  if randomWant.cid.defined then
    let s := s.findMorePeers randomWant
    ({ s with periodicSearchTimer := s.periodicSearchTimer.reset nextWaitTime }, [randomWant])
  else (s, [])

/-- `handleReceive`, and the wants that `RemoveSessionWants` is called with. -/
def handleReceive (now : Time) (s : Session) (ks : List Want) : Session × List Want :=
  let r := s.sw.blocksReceived now ks
  let s := { s with sw := r.sw }
  if r.wanted.isEmpty then (s, [])
  else
    let s := { s with
      latencyTrkr := s.latencyTrkr.receiveUpdate r.wanted.length r.totalLatency
      idleTick := s.idleTick.stop.1
      consecutiveTicks := 0 }
    (s.resetIdleTick, r.wanted)

/-- `wantBlocks` up to the call of the sender: the keys are recorded with the
interest manager, by the caller, and as requested. -/
def wantBlocks (s : Session) (newks : List Want) : Session :=
  if newks.isEmpty then { s with loop := .sending }
  else { s with sw := s.sw.blocksRequested newks, loop := .adding newks }

/-- The end of `wantBlocks`: if no peers have been discovered yet, the first wants
are broadcast. -/
def sendFirst (now : Time) (s : Session) : Session × List Want :=
  let s := { s with loop := .select }
  if s.sws.spm.peersDiscovered then (s, [])
  else
    let r := s.sw.getNextWants now
    ({ s with sw := r.1 }, r.2)

/-- The run loop takes an operation: the state and the interest manager after it. -/
def handle (now : Time) (s : Session) (sim : SessionInterestManager) (oper : Op) :
    Session × SessionInterestManager :=
  match oper.op with
  | .opReceive =>
      let r := s.handleReceive now oper.wants
      (r.1, sim.removeSessionWants s.id r.2)
  | .opWant => (s.wantBlocks oper.wants, sim.recordSessionInterest s.id oper.wants)
  | .opCancel =>
      let s := { s with sw := s.sw.cancelPending oper.keys }
      (if oper.wants.isEmpty then s else { s with loop := .cancelling oper.wants }, sim)
  | .opWantsSent => ({ s with sw := s.sw.wantsSent now oper.wants }, sim)
  | .opBroadcast => ((s.broadcast now (some oper.wants)).1, sim)

/-! ## The other steps of the loops and goroutines -/

/-- `sws.Add` in `wantBlocks`. -/
def passAdd (s : Session) : Session :=
  match s.loop with
  | .adding newks =>
      if s.SenderHasRoom then { s.addChange { add := newks } with loop := .sending } else s
  | _ => s

/-- `sws.Cancel` in the loop. -/
def passCancel (s : Session) : Session :=
  match s.loop with
  | .cancelling wants =>
      if s.SenderHasRoom then { s.addChange { cancel := wants } with loop := .select } else s
  | _ => s

/-- The end of `wantBlocks`, if the loop is there. -/
def passFirst (s : Session) (now : Time) : Session :=
  if s.loop = .sending then (s.sendFirst now).1 else s

/-- A blocked operation gets into the channel. -/
def enterOp (s : Session) (i : Nat) : Session :=
  match s.blockedOps[i]? with
  | none => s
  | some o => if s.HasRoom then { s.enqueue o with blockedOps := s.blockedOps.eraseIdx i } else s

/-- A blocked change gets into the channel. -/
def enterChange (s : Session) (i : Nat) : Session :=
  match s.blockedChanges[i]? with
  | none => s
  | some c =>
      if s.SenderHasRoom then { s.addChange c with blockedChanges := s.blockedChanges.eraseIdx i }
      else s

/-- A blocked operation stays where it is, or goes to the end of the channel. -/
theorem enterOp_cases (s : Session) (i : Nat) : s.enterOp i = s ∨
    ∃ o ∈ s.blockedOps,
      s.enterOp i = { s.enqueue o with blockedOps := s.blockedOps.eraseIdx i } := by
  rw [enterOp]
  split
  · exact .inl rfl
  · rename_i o ho
    split
    · exact .inr ⟨o, List.mem_of_getElem? ho, rfl⟩
    · exact .inl rfl

theorem enterChange_cases (s : Session) (i : Nat) : s.enterChange i = s ∨
    ∃ c ∈ s.blockedChanges,
      s.enterChange i = { s.addChange c with blockedChanges := s.blockedChanges.eraseIdx i } := by
  rw [enterChange]
  split
  · exact .inl rfl
  · rename_i c hc
    split
    · exact .inr ⟨c, List.mem_of_getElem? hc, rfl⟩
    · exact .inl rfl

/-- A search has found a provider, which is as good as a HAVE from it. -/
def foundProvider (s : Session) (i : Nat) (p : PeerID) : Session :=
  match s.searches[i]? with
  | none => s
  | some c => if s.SenderHasRoom then s.addChange { update := ⟨p, [], [c], []⟩ } else s

/-- An idle tick. -/
def onIdleTick (s : Session) (now : Time) : Session :=
  if s.loop = .select ∧ s.idleTick.fired.isSome = true then
    (broadcast now { s with idleTick := s.idleTick.take } none).1
  else s

/-- A tick of the periodic search. -/
def onSearchTick (s : Session) (i nextWaitTime : Nat) : Session :=
  if s.loop = .select ∧ s.periodicSearchTimer.fired.isSome = true then
    (handlePeriodicSearch { s with periodicSearchTimer := s.periodicSearchTimer.take } i
      nextWaitTime).1
  else s

/-- `SetBaseTickDelay`, as the loop takes it. -/
def onBaseTickDelay (s : Session) (d : Nat) : Session :=
  if s.loop = .select then { s with baseTickDelay := d } else s

end Session

end BitswapAuth
