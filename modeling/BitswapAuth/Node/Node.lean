/-
# `BitswapAuth.Node.Node` — sessions, requests and incoming blocks, interleaved

The receiving side of a node: its sessions, the calls of `GetBlocks` made on
them, the calls of `receiveBlocksFrom` that are in progress, for messages from
peers and for blocks added locally, and the two managers the sessions share.
Any number of goroutines run through this code, so the system is a step
function on the whole, and its steps end where another goroutine may come in
between: at a lock, a channel, or a publication.

A block takes two ways.  `receiveBlocksFrom` tells the sessions that have an
entry for its want, and they take the want off their books; after that it
publishes the block under its CID, and the subscriptions to that CID bring it to
the callers.

The peer manager is left out, as nothing here reads it: what it is called with
does not matter, and what it signals to the sessions may come at any time.  A
write to the blockstore that fails ends `receiveBlocksFrom` before it has told
anybody, which is no step at all.
-/
import BitswapAuth.Session.Session
import BitswapAuth.Session.Request

namespace BitswapAuth

open Lib

/-- Where a call of `receiveBlocksFrom` is: about to record block presences, to look
up the interested sessions, to tell the next of them, to send one its update or
its operation, or to publish. -/
inductive Place where
  | recording
  | lookingUp
  | telling (ids : List SessionID)
  | updating (sid : SessionID) (ks haves dontHaves : List Want) (ids : List SessionID)
  | receiving (sid : SessionID) (ks : List Want) (ids : List SessionID)
  | publishing
  deriving DecidableEq

/-- A call of `receiveBlocksFrom`: the sender, the wants of all its blocks, the
HAVEs and DONT_HAVEs, and the blocks to be published yet. -/
structure Receive where
  sender : PeerID
  allKs : List Want
  haves : List Want
  dontHaves : List Want
  wanted : List AuthBlock
  place : Place

/-- The receiving side of a node, with the calls of `CancelSessionWants` so far. -/
structure Node where
  sim : SessionInterestManager
  bpm : BlockPresenceManager
  sessions : GoMap SessionID Session
  requests : List Request
  receives : List Receive
  cancels : List (SessionID × List Want)

/-- The steps.  Requests, calls of `receiveBlocksFrom`, blocked goroutines and
searches are named by their place in the lists.  `skip` is the choice of a
`select` between a channel and a context that is done. -/
inductive Action where
  -- sessions and their loops
  | newSession (sid : SessionID) (rng : Nat → Draw) (initialSearchDelay nextWaitTime : Nat)
  | takeOp (sid : SessionID) (now : Time)
  | add (sid : SessionID)
  | sendFirst (sid : SessionID) (now : Time)
  | cancelWants (sid : SessionID)
  | enterOp (sid : SessionID) (i : Nat)
  | onChange (sid : SessionID)
  | signal (sid : SessionID) (p : PeerID) (isAvailable : Bool)
  | enterChange (sid : SessionID) (i : Nat)
  | provider (sid : SessionID) (i : Nat) (p : PeerID)
  | fireIdle (sid : SessionID)
  | idleTick (sid : SessionID) (now : Time)
  | fireSearch (sid : SessionID)
  | periodicSearch (sid : SessionID) (i nextWaitTime : Nat)
  | setBaseTickDelay (sid : SessionID) (d : Nat)
  | shutdown (sid : SessionID)
  | removeSession (sid : SessionID) (o : RangeOrder)
  -- requests
  | getBlocks (sid : SessionID) (wants : List Want)
  | want (i : Nat) (skip : Bool)
  | cancel (i : Nat)
  | unsubscribe (i : Nat)
  | deliver (i : Nat)
  | finish (i : Nat) (lost skip : Bool)
  -- incoming blocks
  | receiveBlocksFrom (sender : PeerID) (blks : List (Block × Bytes)) (haves dontHaves : List Want)
  | receiveStep (i : Nat) (o : RangeOrder) (skip : Bool)

namespace Node

/-- A node that has done nothing yet. -/
def start : Node := ⟨.new, .new, ∅, [], [], []⟩

/-- The context of the session is done; so it is once the session is removed. -/
def sessionDone (n : Node) (sid : SessionID) : Bool :=
  match n.sessions.lookup sid with
  | none => true
  | some s => s.done

/-- A step of one session. -/
def onSession (n : Node) (sid : SessionID) (f : Session → Session) : Node :=
  { n with sessions := n.sessions.modify sid f }

/-- A step of one request. -/
def onRequest (n : Node) (i : Nat) (f : Request → Request) : Node :=
  { n with requests := n.requests.modify i f }

/-- The run loop at its `select` takes the next operation. -/
def takeOp (n : Node) (sid : SessionID) (now : Time) : Node :=
  match n.sessions.lookup sid with
  | none => n
  | some s =>
      match s.loop, s.incoming with
      | .select, oper :: rest =>
          let r := ({ s with incoming := rest } : Session).handle now n.sim oper
          { n with sessions := n.sessions.insert sid r.1, sim := r.2 }
      | _, _ => n

/-- The calls of `onChange` on the session, and on the session manager. -/
def call (sid : SessionID) (n : Node) : Effect → Node
  | .signalUnavailable p =>
      n.onSession sid fun s =>
        { s with blockedChanges := s.blockedChanges ++ [{ availability := ⟨p, false⟩ }] }
  | .onPeersExhausted ws => n.onSession sid (·.onPeersExhausted ws)
  | .onSend _ wantBlocks wantHaves => n.onSession sid (·.onWantsSent wantBlocks wantHaves)
  | .cancelSessionWants ws =>
      let r := n.sim.removeSessionInterested sid ws
      { n with
        sim := r.1
        bpm := n.bpm.removeKeys r.2
        cancels := n.cancels ++ [(sid, ws)] }
  | .registerSession _ | .sendWants _ _ _ => n

/-- The want sender's loop: one `onChange` with all the changes in the channel. -/
def onChange (n : Node) (sid : SessionID) : Node :=
  match n.sessions.lookup sid with
  | none => n
  | some s =>
      if s.changes.isEmpty then n
      else
        let r := s.sws.onChange n.bpm (s.changes.take changesBufferSize)
        let s := { s with sws := r.1, changes := s.changes.drop changesBufferSize }
        r.2.foldl (call sid) { n with sessions := n.sessions.insert sid s }

/-- `handleShutdown` of a session whose context is done, with `RemoveSession`. -/
def removeSession (n : Node) (sid : SessionID) (o : RangeOrder) : Node :=
  match n.sessions.lookup sid with
  | none => n
  | some s =>
      if s.done = true ∧ s.loop = .select then
        let r := n.sim.removeSession sid o
        { n with
          sim := r.1
          bpm := n.bpm.removeKeys r.2
          sessions := n.sessions.erase sid }
      else n

/-- The want operation of a request is sent, unless a context is done. -/
def want (n : Node) (i : Nat) (skip : Bool) : Node :=
  match n.requests[i]? with
  | none => n
  | some r =>
      if r.started then n
      else if skip then
        if r.cancelled || n.sessionDone r.session then
          n.onRequest i fun r => { r with started := true }
        else n
      else
        match n.sessions.lookup r.session with
        | none => n
        | some s =>
            if s.HasRoom then
              (n.onSession r.session (·.enqueue { op := .opWant, wants := r.wants })).onRequest i
                fun r => { r with asked := true, started := true }
            else n

/-- `handleIncoming` of a request returns, and the cancel operation is sent, unless
the session's context is done. -/
def finish (n : Node) (i : Nat) (lost skip : Bool) : Node :=
  match n.requests[i]? with
  | none => n
  | some r =>
      let ctxDone := r.cancelled || n.sessionDone r.session
      if r.started = true ∧ r.closed = false ∧ (ctxDone = true ∨ (r.Exhausted ∧ lost = false)) then
        if skip then
          if n.sessionDone r.session then n.onRequest i (·.close lost) else n
        else
          match n.sessions.lookup r.session with
          | none => n
          | some s =>
              if s.HasRoom then
                (n.onSession r.session
                  (·.enqueue { op := .opCancel, keys := (r.left lost).keys })).onRequest i
                    (·.close lost)
              else n
      else n

/-- A request that is started: nothing happens, or it is noted, or its wants go to the session
as well. -/
theorem want_cases (n : Node) (i : Nat) (skip : Bool) :
    n.want i skip = n ∨ ∃ r, n.requests[i]? = some r ∧ r.started = false ∧
      (n.want i skip = n.onRequest i (fun r => { r with started := true }) ∨
        n.want i skip =
          (n.onSession r.session (·.enqueue { op := .opWant, wants := r.wants })).onRequest i
            fun r => { r with asked := true, started := true }) := by
  rw [want]
  split
  · exact .inl rfl
  · rename_i r hr
    split
    · exact .inl rfl
    · rename_i hst
      have hst : r.started = false := Bool.eq_false_iff.mpr hst
      split
      · split
        · exact .inr ⟨r, hr, hst, .inl rfl⟩
        · exact .inl rfl
      · split
        · exact .inl rfl
        · split
          · exact .inr ⟨r, hr, hst, .inr rfl⟩
          · exact .inl rfl

/-- A request that returns: nothing happens, or it is closed, and the session is told unless it
is done. -/
theorem finish_cases (n : Node) (i : Nat) (lost skip : Bool) :
    n.finish i lost skip = n ∨
      ∃ r, n.requests[i]? = some r ∧ r.started = true ∧ r.closed = false ∧
        (n.sessionDone r.session = true ∧
            n.finish i lost skip = n.onRequest i (·.close lost) ∨
          n.finish i lost skip = (n.onSession r.session
            (·.enqueue { op := .opCancel, keys := (r.left lost).keys })).onRequest i
              (·.close lost)) := by
  rw [finish]
  split
  · exact .inl rfl
  · rename_i r hr
    dsimp only
    split
    · rename_i hst
      split
      · split
        · rename_i hdone
          exact .inr ⟨r, hr, hst.1, hst.2.1, .inl ⟨hdone, rfl⟩⟩
        · exact .inl rfl
      · split
        · exact .inl rfl
        · split
          · exact .inr ⟨r, hr, hst.1, hst.2.1, .inr rfl⟩
          · exact .inl rfl
    · exact .inl rfl

/-- The blocks a call of `receiveBlocksFrom` publishes: those from a peer only if
some session wants them. -/
def published (n : Node) (sender : PeerID) (blks : List AuthBlock) : List AuthBlock :=
  if sender = .empty then blks else (n.sim.splitWantedUnwanted blks).1

/-- The call of `receiveBlocksFrom`. -/
def receiveBlocksFrom (n : Node) (sender : PeerID) (blks : List (Block × Bytes))
    (haves dontHaves : List Want) : Node :=
  let blks := blks.map fun b => AuthBlock.new b.1 b.2
  let call : Receive :=
    { sender := sender, allKs := blks.map AuthBlock.want, haves := haves, dontHaves := dontHaves
      wanted := n.published sender blks, place := .recording }
  { n with receives := n.receives ++ [call] }

/-- The place of a call changes. -/
def moveTo (n : Node) (i : Nat) (p : Place) : Node :=
  { n with receives := n.receives.modify i fun t => { t with place := p } }

/-- `ReceiveFrom` of the next interested session, up to the filtered update. -/
def tell (n : Node) (i : Nat) (t : Receive) : List SessionID → Node
  | [] => n.moveTo i .publishing
  | sid :: ids =>
      if sid ∈ n.sessions then
        let f := n.sim.filterSessionInterested sid
        n.moveTo i (.updating sid (f t.allKs) (f t.haves) (f t.dontHaves) ids)
      else n.moveTo i (.telling ids)

/-- The update of a session's sender. -/
def update (n : Node) (i : Nat) (t : Receive) (sid : SessionID) (ks haves dontHaves : List Want)
    (ids : List SessionID) : Node :=
  match n.sessions.lookup sid with
  | none => n.moveTo i (.telling ids)
  | some s =>
      if ks.isEmpty && haves.isEmpty && dontHaves.isEmpty then n.moveTo i (.telling ids)
      else if s.SenderHasRoom then
        let n := n.onSession sid (·.addChange { update := ⟨t.sender, ks, haves, dontHaves⟩ })
        n.moveTo i (if ks.isEmpty then .telling ids else .receiving sid ks ids)
      else n

/-- The call waits for room, goes on to the next session, or has the update taken first. -/
theorem update_cases (n : Node) (i : Nat) (t : Receive) (sid : SessionID)
    (ks haves dontHaves : List Want) (ids : List SessionID) :
    n.update i t sid ks haves dontHaves ids = n ∨
      ((n.sessions.lookup sid = none ∨ ks = []) ∧
        n.update i t sid ks haves dontHaves ids = n.moveTo i (.telling ids)) ∨
      ∃ s, n.sessions.lookup sid = some s ∧ n.update i t sid ks haves dontHaves ids =
        (n.onSession sid (·.addChange { update := ⟨t.sender, ks, haves, dontHaves⟩ })).moveTo i
          (if ks.isEmpty then .telling ids else .receiving sid ks ids) := by
  rw [update]
  split
  · rename_i hgone
    exact .inr (.inl ⟨.inl hgone, rfl⟩)
  · rename_i s hs
    split
    · rename_i hempty
      simp only [Bool.and_eq_true, List.isEmpty_iff] at hempty
      exact .inr (.inl ⟨.inr hempty.1.1, rfl⟩)
    · split
      · exact .inr (.inr ⟨s, hs, rfl⟩)
      · exact .inl rfl

/-- The receive operation of a session. -/
def receive (n : Node) (i : Nat) (sid : SessionID) (ks : List Want) (ids : List SessionID)
    (skip : Bool) : Node :=
  match n.sessions.lookup sid with
  | none => n.moveTo i (.telling ids)
  | some s =>
      if skip then if s.done then n.moveTo i (.telling ids) else n
      else if s.HasRoom then
        (n.onSession sid (·.enqueue { op := .opReceive, wants := ks })).moveTo i (.telling ids)
      else n

/-- The call waits for room, goes on if the session is gone or done, or has the operation taken
first. -/
theorem receive_cases (n : Node) (i : Nat) (sid : SessionID) (ks : List Want)
    (ids : List SessionID) (skip : Bool) :
    n.receive i sid ks ids skip = n ∨
      ((∀ s, n.sessions.lookup sid = some s → s.done = true) ∧
        n.receive i sid ks ids skip = n.moveTo i (.telling ids)) ∨
      ∃ s, n.sessions.lookup sid = some s ∧ n.receive i sid ks ids skip =
        (n.onSession sid (·.enqueue { op := .opReceive, wants := ks })).moveTo i
          (.telling ids) := by
  rw [receive]
  split
  · rename_i hgone
    refine .inr (.inl ⟨fun s hs => ?_, rfl⟩)
    rw [hgone] at hs
    cases hs
  · rename_i s hs
    split
    · split
      · rename_i hdone
        exact .inr (.inl ⟨fun s' hs' => Option.some.inj (hs.symm.trans hs') ▸ hdone, rfl⟩)
      · exact .inl rfl
    · split
      · exact .inr (.inr ⟨s, hs, rfl⟩)
      · exact .inl rfl

/-- The next block of a call is published. -/
def publish (n : Node) (i : Nat) (t : Receive) : Node :=
  match t.wanted with
  | [] => { n with receives := n.receives.eraseIdx i }
  | b :: wanted =>
      { n with
        requests := n.requests.map (·.publish b)
        receives := n.receives.modify i fun t => { t with wanted := wanted } }

/-- The next step of a call of `receiveBlocksFrom`. -/
def receiveStep (n : Node) (i : Nat) (o : RangeOrder) (skip : Bool) : Node :=
  match n.receives[i]? with
  | none => n
  | some t =>
      match t.place with
      | .recording => ({ n with bpm := n.bpm.receiveFrom t.sender t.haves t.dontHaves }).moveTo i
          .lookingUp
      | .lookingUp => n.moveTo i
          (.telling (n.sim.interestedSessions t.allKs t.haves t.dontHaves o))
      | .telling ids => n.tell i t ids
      | .updating sid ks haves dontHaves ids => n.update i t sid ks haves dontHaves ids
      | .receiving sid ks ids => n.receive i sid ks ids skip
      | .publishing => n.publish i t

/-- One step. -/
def step (n : Node) : Action → Node
  | .newSession sid rng initialSearchDelay nextWaitTime =>
      -- IDs are handed out in sequence
      if sid ∉ n.sessions ∧ ∀ r ∈ n.requests, r.session ≠ sid then
        { n with
          sessions := n.sessions.insert sid (.new sid rng initialSearchDelay nextWaitTime) }
      else n
  | .takeOp sid now => n.takeOp sid now
  | .add sid => n.onSession sid (·.passAdd)
  | .sendFirst sid now => n.onSession sid (·.passFirst now)
  | .cancelWants sid => n.onSession sid (·.passCancel)
  | .enterOp sid i => n.onSession sid (·.enterOp i)
  | .onChange sid => n.onChange sid
  | .signal sid p isAvailable => n.onSession sid (·.signalAvailability p isAvailable)
  | .enterChange sid i => n.onSession sid (·.enterChange i)
  | .provider sid i p => n.onSession sid (·.foundProvider i p)
  | .fireIdle sid => n.onSession sid fun s => { s with idleTick := s.idleTick.fire }
  | .idleTick sid now => n.onSession sid (·.onIdleTick now)
  | .fireSearch sid =>
      n.onSession sid fun s => { s with periodicSearchTimer := s.periodicSearchTimer.fire }
  | .periodicSearch sid i nextWaitTime => n.onSession sid (·.onSearchTick i nextWaitTime)
  | .setBaseTickDelay sid d => n.onSession sid (·.onBaseTickDelay d)
  | .shutdown sid => n.onSession sid fun s => { s with done := true }
  | .removeSession sid o => n.removeSession sid o
  | .getBlocks sid wants =>
      if wants.isEmpty ∨ sid ∉ n.sessions then n
      else { n with requests := n.requests ++ [.subscribe sid wants] }
  | .want i skip => n.want i skip
  | .cancel i => n.onRequest i fun r => { r with cancelled := true }
  | .unsubscribe i =>
      n.onRequest i fun r => if r.cancelled then { r with listening := false } else r
  | .deliver i => n.onRequest i fun r => if r.started && !r.closed then r.deliver else r
  | .finish i lost skip => n.finish i lost skip
  | .receiveBlocksFrom sender blks haves dontHaves =>
      n.receiveBlocksFrom sender blks haves dontHaves
  | .receiveStep i o skip => n.receiveStep i o skip

end Node

end BitswapAuth
