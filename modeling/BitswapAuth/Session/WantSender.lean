/-
# `BitswapAuth.Session.WantSender` — the loop that asks peers for blocks

`sessionWantSender`: for each want of a session one want-block to the best peer
and want-haves to the others, and another peer when that one answers DONT_HAVE
or goes away.  Everything happens in `onChange`, which takes a batch of changes
and works through it in five passes: the new and the cancelled wants, the
availability of peers, the received messages, the wants that no peer has, and
the wants to be sent.

The sender reads the shared block presence manager, an argument here, and calls
the peer manager, the session and the session manager; those calls are
returned, in order.  The order of each range over a map and the random numbers
are taken from a stream that the state carries.
-/
import BitswapAuth.Session.WantInfo
import BitswapAuth.PeerManager.Manager
import BitswapAuth.Lib.Run

namespace BitswapAuth

open Lib

/-! ## Changes -/

/-- `update`: a message received by the session. -/
structure Update where
  sender : PeerID
  ks : List Want
  haves : List Want
  dontHaves : List Want
  deriving DecidableEq

/-- `peerAvailability`. -/
structure PeerAvailability where
  target : PeerID
  available : Bool
  deriving DecidableEq

/-- `change`.  A field that is left out has the zero value of its type. -/
structure Change where
  add : List Want := []
  cancel : List Want := []
  update : Update := ⟨.empty, [], [], []⟩
  availability : PeerAvailability := ⟨.empty, false⟩
  deriving DecidableEq

/-- The update includes blocks or HAVEs, and so says that its sender is available. -/
def Update.signalsAvailable (u : Update) : Bool := !u.ks.isEmpty || !u.haves.isEmpty

/-- The calls `onChange` makes on other components. -/
inductive Effect where
  | registerSession (p : PeerID)
  | signalUnavailable (p : PeerID)
  | onPeersExhausted (ws : List Want)
  | cancelSessionWants (ws : List Want)
  | sendWants (p : PeerID) (wantBlocks wantHaves : List Want)
  | onSend (p : PeerID) (wantBlocks wantHaves : List Want)
  deriving DecidableEq

/-- `sessionWantSender`. -/
structure SessionWantSender where
  sessionID : SessionID
  wants : GoMap Want WantInfo
  wantDups : GoMap Cid (List Want)
  peerConsecutiveDontHaves : GoMap PeerID Nat
  swbt : GoMap PeerID (GoSet Want)
  peerRspTrkr : PeerResponseTracker
  spm : SessionPeerManager
  rng : Nat → Draw

/-- `peerDontHaveLimit`. -/
def peerDontHaveLimit : Nat := 16

/-- `changesBufferSize`. -/
def changesBufferSize : Nat := 128

namespace SessionWantSender

/-- `newSessionWantSender`. -/
def new (sid : SessionID) (rng : Nat → Draw) : SessionWantSender :=
  ⟨sid, ∅, ∅, ∅, ∅, .new, .new, rng⟩

/-- The state once a draw is used up. -/
def next (sws : SessionWantSender) : SessionWantSender :=
  { sws with rng := fun n => sws.rng (n + 1) }

/-- The order in which a range visits the items. -/
def ranging {α : Type} (sws : SessionWantSender) (l : List α) : List α := (sws.rng 0).first.range l

theorem ranging_perm {α : Type} (sws : SessionWantSender) (l : List α) : (sws.ranging l).Perm l :=
  (sws.rng 0).first.range_perm l

@[simp]
theorem mem_ranging {α : Type} {sws : SessionWantSender} {l : List α} {a : α} :
    a ∈ sws.ranging l ↔ a ∈ l :=
  (sws.ranging_perm l).mem_iff

/-- `haveSentWantBlockTo`. -/
def haveSentWantBlockTo (sws : SessionWantSender) (p : PeerID) (w : Want) : Bool :=
  ((sws.swbt.lookup p).getD ∅).has w

/-- `addSentWantBlocksTo`. -/
def addSentWantBlocksTo (sws : SessionWantSender) (p : PeerID) (ks : List Want) :
    SessionWantSender :=
  { sws with swbt := sws.swbt.insert p (ks.foldl GoSet.add ((sws.swbt.lookup p).getD ∅)) }

/-! ## New and cancelled wants -/

/-- `updateWantBlockPresence`. -/
def updateWantBlockPresence (bpm : BlockPresenceManager) (w : Want) (sws : SessionWantSender)
    (p : PeerID) : SessionWantSender :=
  match sws.wants.lookup w with
  | none => sws
  | some wi =>
      { sws.next with
        wants := sws.wants.insert w
          (wi.setPeerBlockPresence sws.peerRspTrkr (sws.rng 0) p (bpm.presenceOf p w.cid)) }

/-- The entries `trackWant` makes for a want. -/
def enterWant (sws : SessionWantSender) (w : Want) : SessionWantSender :=
  { sws with
    wants := sws.wants.insert w .new
    wantDups := sws.wantDups.insert w.cid (sws.wantDups.getD w.cid [] ++ [w]) }

/-- `trackWant`. -/
def trackWant (bpm : BlockPresenceManager) (sws : SessionWantSender) (w : Want) :
    SessionWantSender :=
  if w ∈ sws.wants then sws
  else
    -- for each peer, register what is known about whether it has the block
    (sws.ranging sws.spm.peers.keys).foldl (updateWantBlockPresence bpm w) (sws.enterWant w).next

/-- `untrackWant`. -/
def untrackWant (sws : SessionWantSender) (w : Want) : SessionWantSender :=
  { sws with wants := sws.wants.erase w }

/-- The variables of the first loop of `onChange`, with the peers that the session
was registered for. -/
structure Collected where
  sws : SessionWantSender
  availability : GoMap PeerID Bool
  cancels : List Want
  updates : List Update
  registered : List PeerID

/-- One round of the first loop. -/
def Collected.change (bpm : BlockPresenceManager) (s : Collected) (chng : Change) : Collected :=
  let sws := chng.add.foldl (trackWant bpm) s.sws
  let sws := chng.cancel.foldl untrackWant sws
  let cancels := s.cancels ++ chng.cancel
  let upd := chng.update
  let s : Collected :=
    if upd.sender = .empty then { s with sws := sws, cancels := cancels }
    else if upd.signalsAvailable then
      { sws := sws, cancels := cancels
        availability := s.availability.insert upd.sender true
        registered := s.registered ++ [upd.sender]
        updates := s.updates ++ [upd] }
    else { s with sws := sws, cancels := cancels, updates := s.updates ++ [upd] }
  if chng.availability.target = .empty then s
  else
    { s with
      availability := s.availability.insert chng.availability.target chng.availability.available }

/-! ## Availability -/

/-- `updateWantsPeerAvailability`. -/
def updateWantsPeerAvailability (bpm : BlockPresenceManager) (p : PeerID) (isNowAvailable : Bool)
    (sws : SessionWantSender) : SessionWantSender :=
  (sws.ranging sws.wants.keys).foldl (fun sws w =>
    if isNowAvailable then updateWantBlockPresence bpm w sws p
    else
      { sws.next with
        wants := sws.wants.modify w fun wi => wi.removePeer sws.peerRspTrkr (sws.rng 0) p })
    sws.next

/-- The variables of `processAvailability`. -/
structure Shift where
  sws : SessionWantSender
  newlyAvailable : List PeerID
  newlyUnavailable : List PeerID

/-- One round of `processAvailability`. -/
def Shift.peer (bpm : BlockPresenceManager) (s : Shift) (e : PeerID × Bool) : Shift :=
  let p := e.1
  let r := if e.2 then s.sws.spm.addPeer p else s.sws.spm.removePeer p
  -- whether the state has changed
  if r.2 then
    let sws := updateWantsPeerAvailability bpm p e.2 { s.sws with spm := r.1 }
    { sws := { sws with peerConsecutiveDontHaves := sws.peerConsecutiveDontHaves.erase p }
      newlyAvailable := if e.2 then s.newlyAvailable ++ [p] else s.newlyAvailable
      newlyUnavailable := if e.2 then s.newlyUnavailable else s.newlyUnavailable ++ [p] }
  else s

/-- `processAvailability`. -/
def processAvailability (bpm : BlockPresenceManager) (availability : GoMap PeerID Bool)
    (sws : SessionWantSender) : Shift :=
  (sws.ranging availability.pairs).foldl (Shift.peer bpm) ⟨sws.next, [], []⟩

/-! ## Received messages -/

/-- A block key from the peer: the want is done. -/
def receiveKey (sender : PeerID) (sws : SessionWantSender) (c : Want) : SessionWantSender :=
  let sws :=
    if c ∈ sws.wants then
      { sws with
        wants := sws.wants.erase c
        -- this peer was the first to send the block, and its connection is kept
        peerRspTrkr := sws.peerRspTrkr.receivedBlockFrom sender
        spm := sws.spm.protectConnection sender }
    else sws
  { sws with peerConsecutiveDontHaves := sws.peerConsecutiveDontHaves.erase sender }

/-- `setWantSentTo`. -/
def setWantSentTo (sws : SessionWantSender) (w : Want) (p : PeerID) : SessionWantSender :=
  { sws with wants := sws.wants.modify w fun wi => { wi with sentTo := p } }

/-- The variables of the loops over DONT_HAVEs and HAVEs. -/
structure Answers where
  sws : SessionWantSender
  dontHaves : List Want
  prunePeers : GoSet PeerID

/-- The number of consecutive DONT_HAVEs from the peer, which is pruned at the
limit. -/
def Answers.countDontHave (sender : PeerID) (s : Answers) : Answers :=
  let count := s.sws.peerConsecutiveDontHaves.getD sender 0
  if count = peerDontHaveLimit then { s with prunePeers := s.prunePeers.add sender }
  else
    { s with
      sws := { s.sws with
        peerConsecutiveDontHaves := s.sws.peerConsecutiveDontHaves.insert sender (count + 1) } }

/-- The want after a DONT_HAVE from the peer: if it answers the want-block, the
want can be sent to another peer. -/
def answerDontHave (bpm : BlockPresenceManager) (w : Want) (sws : SessionWantSender)
    (sender : PeerID) : SessionWantSender :=
  let sws := updateWantBlockPresence bpm w sws sender
  if sws.haveSentWantBlockTo sender w &&
      (sws.wants.lookup w).any (fun wi => wi.sentTo = sender) then
    sws.setWantSentTo w .empty
  else sws

/-- One DONT_HAVE from the peer. -/
def Answers.onDontHave (bpm : BlockPresenceManager) (blkCids : GoSet Want) (sender : PeerID)
    (s : Answers) (w : Want) : Answers :=
  let s := s.countDontHave sender
  -- the block was received: there is no need to update its presence
  if blkCids.has w then s
  else { s with dontHaves := s.dontHaves ++ [w], sws := answerDontHave bpm w s.sws sender }

/-- One HAVE from the peer. -/
def Answers.onHave (bpm : BlockPresenceManager) (blkCids : GoSet Want) (sender : PeerID)
    (s : Answers) (w : Want) : Answers :=
  let sws := if blkCids.has w then s.sws else updateWantBlockPresence bpm w s.sws sender
  { s with
    sws := { sws with peerConsecutiveDontHaves := sws.peerConsecutiveDontHaves.erase sender }
    prunePeers := s.prunePeers.remove sender }

/-- The items of a list in each update, with the sender. -/
def items (f : Update → List Want) (updates : List Update) : List (PeerID × Want) :=
  updates.flatMap fun upd => (f upd).map fun w => (upd.sender, w)

/-- The peers to be pruned: not those that have a block the session wants. -/
def pruned (bpm : BlockPresenceManager) (s : Answers) : List PeerID :=
  (s.sws.ranging s.prunePeers.keys).filter fun p =>
    !s.sws.wants.keys.any fun c => bpm.peerHasBlock p c.cid

/-- `processUpdates`: the state, the DONT_HAVEs and the peers that are signalled
as unavailable. -/
def processUpdates (bpm : BlockPresenceManager) (updates : List Update)
    (sws : SessionWantSender) : SessionWantSender × List Want × List PeerID :=
  let blkCids := GoSet.ofList (updates.flatMap Update.ks)
  let sws := (items Update.ks updates).foldl (fun sws i => receiveKey i.1 sws i.2) sws
  let s : Answers := ⟨sws, [], ∅⟩
  let s := (items Update.dontHaves updates).foldl (fun s i => s.onDontHave bpm blkCids i.1 i.2) s
  let s := (items Update.haves updates).foldl (fun s i => s.onHave bpm blkCids i.1 i.2) s
  (s.sws.next, s.dontHaves, pruned bpm s)

/-! ## Exhausted wants -/

/-- One round of `newlyExhausted`. -/
def markExhausted (s : SessionWantSender × List Want) (w : Want) :
    SessionWantSender × List Want :=
  match s.1.wants.lookup w with
  | none => s
  | some wi =>
      if wi.exhausted then s
      else
        ({ s.1 with wants := s.1.wants.insert w { wi with exhausted := true } }, s.2 ++ [w])

/-- `processExhaustedWants`. -/
def processExhaustedWants (sws : SessionWantSender) (exhausted : List Want) :
    SessionWantSender × List Effect :=
  let s := exhausted.foldl markExhausted (sws, [])
  (s.1, if s.2.isEmpty then [] else [.onPeersExhausted s.2])

/-- `checkForExhaustedWants`. -/
def checkForExhaustedWants (bpm : BlockPresenceManager) (dontHaves : List Want)
    (newlyUnavailable : List PeerID) (sws : SessionWantSender) :
    SessionWantSender × List Effect :=
  if dontHaves.isEmpty && newlyUnavailable.isEmpty then (sws, [])
  else if newlyUnavailable.isEmpty then
    sws.processExhaustedWants (bpm.allPeersDoNotHaveBlock sws.spm.peers.keys dontHaves)
  else
    -- the slice is made with its length, so the pending wants come after as many zero ones
    let wants := List.replicate sws.wants.len Want.undefined ++ sws.ranging sws.wants.keys
    let sws := sws.next
    if sws.spm.hasPeers then
      sws.processExhaustedWants (bpm.allPeersDoNotHaveBlock sws.spm.peers.keys wants)
    else sws.processExhaustedWants wants

/-! ## Sending -/

/-- `wantSets`. -/
structure WantSets where
  wantBlocks : GoSet Want
  wantHaves : GoSet Want

/-- `allWants`. -/
abbrev AllWants := GoMap PeerID WantSets

namespace AllWants

/-- `forPeer`. -/
def forPeer (aw : AllWants) (p : PeerID) : WantSets := aw.getD p ⟨∅, ∅⟩

def addWantBlock (w : Want) (aw : AllWants) (p : PeerID) : AllWants :=
  let snd := forPeer aw p
  aw.insert p { snd with wantBlocks := snd.wantBlocks.add w }

def addWantHave (w : Want) (aw : AllWants) (p : PeerID) : AllWants :=
  let snd := forPeer aw p
  aw.insert p { snd with wantHaves := snd.wantHaves.add w }

end AllWants

/-- One round of the loop of `sendNextWants`. -/
def nextWant (newlyAvailable : List PeerID) (s : SessionWantSender × AllWants) (w : Want) :
    SessionWantSender × AllWants :=
  match s.1.wants.lookup w with
  | none => s
  | some wi =>
      -- want-haves to the newly available peers
      let toSend := newlyAvailable.foldl (AllWants.addWantHave w) s.2
      if wi.sentTo ≠ .empty then (s.1, toSend)
      else if wi.bestPeer = .empty then (s.1, toSend)
      else
        let sws := s.1.setWantSentTo w wi.bestPeer
        let toSend := AllWants.addWantBlock w toSend wi.bestPeer
        let others := (sws.ranging sws.spm.peers.keys).filter fun op => op ≠ wi.bestPeer
        (sws.next, others.foldl (AllWants.addWantHave w) toSend)

/-- `getPiggybackWantHaves`. -/
def getPiggybackWantHaves (sws : SessionWantSender) (p : PeerID) (wantBlocks : GoSet Want) :
    List Want :=
  (sws.ranging sws.wants.keys).filter fun w =>
    !wantBlocks.has w && !sws.haveSentWantBlockTo p w

/-- One round of the loop of `sendWants`. -/
def sendTo (s : SessionWantSender × List Effect) (e : PeerID × WantSets) :
    SessionWantSender × List Effect :=
  let wantHaves := (s.1.getPiggybackWantHaves e.1 e.2.wantBlocks).foldl GoSet.add e.2.wantHaves
  let wblks := s.1.next.ranging e.2.wantBlocks.keys
  let whaves := s.1.next.next.ranging wantHaves.keys
  (s.1.next.next.next.addSentWantBlocksTo e.1 wblks,
    s.2 ++ [.sendWants e.1 wblks whaves, .onSend e.1 wblks whaves])

/-- `sendNextWants`, with `sendWants`. -/
def sendNextWants (newlyAvailable : List PeerID) (sws : SessionWantSender) :
    SessionWantSender × List Effect :=
  let s := (sws.ranging sws.wants.keys).foldl (nextWant newlyAvailable) (sws.next, ∅)
  (s.1.ranging s.2.pairs).foldl sendTo (s.1.next, [])

/-! ## `onChange` -/

/-- The changes gone through, before any of the later passes. -/
def collect (bpm : BlockPresenceManager) (changes : List Change) (sws : SessionWantSender) :
    Collected :=
  changes.foldl (Collected.change bpm) ⟨sws, ∅, [], [], []⟩

/-- The state in which `processUpdates` begins. -/
def beforeUpdates (bpm : BlockPresenceManager) (changes : List Change) (sws : SessionWantSender) :
    SessionWantSender :=
  ((sws.collect bpm changes).sws.processAvailability bpm
    (sws.collect bpm changes).availability).sws

/-- The first four passes: the state, the peers that became available, and the
calls made. -/
structure Settled where
  sws : SessionWantSender
  newlyAvailable : List PeerID
  calls : List Effect

/-- `onChange` up to the sending of wants. -/
def settle (bpm : BlockPresenceManager) (changes : List Change) (sws : SessionWantSender) :
    Settled :=
  let s := sws.collect bpm changes
  let av := s.sws.processAvailability bpm s.availability
  let up := av.sws.processUpdates bpm s.updates
  let ex := up.1.checkForExhaustedWants bpm up.2.1 av.newlyUnavailable
  { sws := ex.1
    newlyAvailable := av.newlyAvailable
    calls := s.registered.map .registerSession ++ up.2.2.map .signalUnavailable ++ ex.2 ++
      (if s.cancels.isEmpty then [] else [.cancelSessionWants s.cancels]) }

/-- `onChange`, for the changes it has collected. -/
def onChange (bpm : BlockPresenceManager) (changes : List Change) (sws : SessionWantSender) :
    SessionWantSender × List Effect :=
  let s := sws.settle bpm changes
  -- if there are some connected peers, send any pending wants
  if s.sws.spm.hasPeers then
    let sent := s.sws.sendNextWants s.newlyAvailable
    (sent.1, s.calls ++ sent.2)
  else (s.sws, s.calls)

/-- A turn settles the batch, and then sends if the session has peers. -/
theorem onChange_cases (bpm : BlockPresenceManager) (changes : List Change)
    (sws : SessionWantSender) :
    ((sws.settle bpm changes).sws.spm.hasPeers = true ∧
      ∃ sws' sent, (sws.settle bpm changes).sws.sendNextWants
          (sws.settle bpm changes).newlyAvailable = (sws', sent) ∧
        sws.onChange bpm changes = (sws', (sws.settle bpm changes).calls ++ sent)) ∨
    ((sws.settle bpm changes).sws.spm.hasPeers = false ∧
      sws.onChange bpm changes =
        ((sws.settle bpm changes).sws, (sws.settle bpm changes).calls)) := by
  rw [onChange]
  generalize sws.settle bpm changes = s
  dsimp only
  cases s.sws.spm.hasPeers with
  | true =>
      rw [if_pos rfl]
      generalize s.sws.sendNextWants s.newlyAvailable = sent
      exact .inl ⟨rfl, sent.1, sent.2, rfl, rfl⟩
  | false => exact .inr ⟨rfl, rfl⟩

/-! ## What is kept besides the wants

Most of what a turn does it does to the wants.  The peers of the session and the counts of
DONT_HAVEs are changed by `processAvailability` and `processUpdates` alone, and the record of
sent want-blocks by `sendNextWants`. -/

/-- The state without the wants. -/
structure Aside where
  sessionID : SessionID
  spm : SessionPeerManager
  peerConsecutiveDontHaves : GoMap PeerID Nat
  swbt : GoMap PeerID (GoSet Want)

def aside (sws : SessionWantSender) : Aside :=
  ⟨sws.sessionID, sws.spm, sws.peerConsecutiveDontHaves, sws.swbt⟩

section

variable {bpm : BlockPresenceManager}

theorem aside_updateWantBlockPresence (w : Want) (sws : SessionWantSender) (p : PeerID) :
    (updateWantBlockPresence bpm w sws p).aside = sws.aside := by
  rw [updateWantBlockPresence]
  split <;> rfl

theorem aside_trackWant (sws : SessionWantSender) (w : Want) :
    (trackWant bpm sws w).aside = sws.aside := by
  rw [trackWant]
  split
  · rfl
  · exact foldl_keeps aside (aside_updateWantBlockPresence w) _ (sws.enterWant w).next

theorem aside_change (s : Collected) (chng : Change) :
    (Collected.change bpm s chng).sws.aside = s.sws.aside := by
  have h : (chng.cancel.foldl untrackWant (chng.add.foldl (trackWant bpm) s.sws)).aside =
      s.sws.aside :=
    (foldl_keeps (f := untrackWant) aside (fun _ _ => rfl) chng.cancel _).trans
      (foldl_keeps aside aside_trackWant chng.add s.sws)
  rw [Collected.change]
  split <;> split <;> (try split) <;> exact h

theorem aside_collect (changes : List Change) (sws : SessionWantSender) :
    (sws.collect bpm changes).sws.aside = sws.aside :=
  foldl_keeps (fun s : Collected => s.sws.aside) aside_change changes ⟨sws, ∅, [], [], []⟩

theorem aside_updateWantsPeerAvailability (p : PeerID) (b : Bool) (sws : SessionWantSender) :
    (updateWantsPeerAvailability bpm p b sws).aside = sws.aside := by
  refine foldl_keeps aside (fun s w => ?_) _ sws.next
  split
  · exact aside_updateWantBlockPresence w s p
  · rfl

theorem aside_answerDontHave (w : Want) (sws : SessionWantSender) (sender : PeerID) :
    (answerDontHave bpm w sws sender).aside = sws.aside := by
  rw [answerDontHave]
  split <;> exact aside_updateWantBlockPresence w sws sender

theorem aside_processExhaustedWants (sws : SessionWantSender) (ws : List Want) :
    (sws.processExhaustedWants ws).1.aside = sws.aside := by
  refine foldl_keeps (fun s : SessionWantSender × List Want => s.1.aside) (fun s w => ?_) ws
    (sws, [])
  rw [markExhausted]
  split
  · rfl
  · split <;> rfl

theorem aside_checkForExhaustedWants (dontHaves : List Want) (gone : List PeerID)
    (sws : SessionWantSender) :
    (sws.checkForExhaustedWants bpm dontHaves gone).1.aside = sws.aside := by
  rw [checkForExhaustedWants]
  split
  · rfl
  · split
    · exact aside_processExhaustedWants ..
    · dsimp only
      split <;> exact aside_processExhaustedWants ..

theorem aside_nextWant (na : List PeerID) (s : SessionWantSender × AllWants) (w : Want) :
    (nextWant na s w).1.aside = s.1.aside := by
  rw [nextWant]
  split
  · rfl
  · split
    · rfl
    · split <;> rfl

theorem aside_foldl_nextWant (na : List PeerID) (l : List Want) (s : SessionWantSender × AllWants) :
    (l.foldl (nextWant na) s).1.aside = s.1.aside :=
  foldl_keeps (fun s : SessionWantSender × AllWants => s.1.aside) (aside_nextWant na) l s

end

/-- The peers of the session, and the counts of DONT_HAVEs. -/
def byPeer (sws : SessionWantSender) : SessionPeerManager × GoMap PeerID Nat :=
  (sws.spm, sws.peerConsecutiveDontHaves)

theorem byPeer_of_aside {sws sws' : SessionWantSender} (h : sws'.aside = sws.aside) :
    sws'.byPeer = sws.byPeer :=
  congrArg (fun a => (a.spm, a.peerConsecutiveDontHaves)) h

theorem byPeer_sendNextWants (na : List PeerID) (sws : SessionWantSender) :
    (sws.sendNextWants na).1.byPeer = sws.byPeer := by
  rw [sendNextWants]
  refine Eq.trans (foldl_keeps (f := sendTo) (fun s => s.1.byPeer) (fun s e => ?_) _ _) ?_
  · dsimp only [sendTo, addSentWantBlocksTo, next, byPeer]
  · exact byPeer_of_aside (aside_foldl_nextWant na _ (sws.next, ∅))

/-- After `processUpdates` neither of them changes in a turn. -/
theorem byPeer_onChange (bpm : BlockPresenceManager) (changes : List Change)
    (sws : SessionWantSender) :
    (sws.onChange bpm changes).1.byPeer =
      ((sws.beforeUpdates bpm changes).processUpdates bpm
        (sws.collect bpm changes).updates).1.byPeer := by
  have hsettle : (sws.settle bpm changes).sws.byPeer = _ :=
    byPeer_of_aside (aside_checkForExhaustedWants ..)
  rcases onChange_cases bpm changes sws with ⟨-, sws', sent, hsend, hturn⟩ | ⟨-, hturn⟩
  · have hsent := byPeer_sendNextWants (sws.settle bpm changes).newlyAvailable
      (sws.settle bpm changes).sws
    rw [hsend] at hsent
    rw [hturn]
    exact hsent.trans hsettle
  · rw [hturn]
    exact hsettle

end SessionWantSender

end BitswapAuth
