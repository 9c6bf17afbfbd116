/-
# `BitswapAuth.Decision.Engine` — the engine that answers other peers

The package `decision`.  A message from a peer becomes tasks on the request
queue, and the tasks popped for a peer become the envelope it is sent.  Three
layers lie between: the engine decides from the *size* of a block what kind of
task to queue, the blockstore manager fetches the blocks of the popped tasks
with one job per want, and the authenticated blockstore below it releases a
block or not.

The request queue is not part of the repository.  What is pushed to it is an
output here and what is popped an input, so that nothing depends on how it
orders or merges tasks.  The engine's methods are cut where the source takes
and gives up its locks; the method is the composition of its sections.
-/
import BitswapAuth.Message

namespace BitswapAuth

open Lib

/-! ## The blockstore manager -/

/-- What becomes of the jobs of one call: the order in which the workers finish
them, and the first one that is refused because the context is done or the node
is shutting down. -/
structure Schedule where
  order : RangeOrder
  refused : Option Nat

/-- All jobs are accepted. -/
def Schedule.complete (order : RangeOrder) : Schedule := ⟨order, none⟩

/-- `jobPerKey`: the jobs up to the refused one are run, and whether one was
refused. -/
def jobPerKey {σ : Type} (s : Schedule) (ws : List Want) (jobFn : σ → Want → σ) (init : σ) :
    σ × Bool :=
  match s.refused with
  | none => ((s.order.range ws).foldl jobFn init, false)
  | some i => ((s.order.range (ws.take i)).foldl jobFn init, i < ws.length)

/-- A job that looks something up for a want and records it if it is there. -/
def recordJob {V : Type} (find : Want → Except StoreErr V) (res : GoMap Want V) (w : Want) :
    GoMap Want V :=
  match find w with
  | .ok v => res.insert w v
  -- an error other than those of a missing block is logged, none is fatal
  | .error _ => res

/-- `getBlockSizes`. -/
def getBlockSizes (bs : AuthedBlockstore) (s : Schedule) (ws : List Want) : GoMap Want Nat × Bool :=
  if ws.isEmpty then (∅, false) else jobPerKey s ws (recordJob fun w => bs.getSize w.cid) ∅

/-- `getBlocks`, given what becomes of the lookup for each want: the blockstore may change between
two jobs. -/
def getBlocks (found : Want → Except StoreErr Block) (s : Schedule) (ws : List Want) :
    GoMap Want Block × Bool :=
  if ws.isEmpty then (∅, false) else jobPerKey s ws (recordJob found) ∅

/-- What the lookups for a peer come to if the blockstore stays as it is. -/
def AuthedBlockstore.lookups (bs : AuthedBlockstore) (remote : PeerID) (w : Want) :
    Except StoreErr Block :=
  bs.get w.cid remote w.auth

theorem lookup_foldl_recordJob {V : Type} {find : Want → Except StoreErr V} {w : Want} {v : V} :
    ∀ (ws : List Want) (m : GoMap Want V), (∀ u, m.lookup w = some u → find w = .ok u) →
      ((ws.foldl (recordJob find) m).lookup w = some v ↔
        (w ∈ ws ∧ find w = .ok v) ∨ m.lookup w = some v)
  | [], m, _ => by simp
  | k :: ws, m, hm => by
      have hstep : (recordJob find m k).lookup w =
          if w = k then (find k).toOption.or (m.lookup w) else m.lookup w := by
        rw [recordJob]
        cases hk : find k with
        | ok u => rw [GoMap.lookup_insert_ite]; rfl
        | error e => simp [Except.toOption]
      have hm' : ∀ u, (recordJob find m k).lookup w = some u → find w = .ok u := by
        intro u hu
        rw [hstep] at hu
        split at hu
        · rename_i hwk
          subst hwk
          cases hf : find w with
          | ok u' => rw [hf] at hu; exact congrArg _ (Option.some.inj hu)
          | error e => rw [hf] at hu; rw [← hf]; exact hm u hu
        · exact hm u hu
      rw [List.foldl_cons, lookup_foldl_recordJob ws _ hm', hstep, List.mem_cons]
      by_cases hwk : w = k
      · subst hwk
        cases hf : find w with
        | ok u =>
            have : m.lookup w = some v → u = v := fun h => by simpa [hf] using hm v h
            simp [Except.toOption]
            tauto
        | error e => simp [Except.toOption]
      · simp [hwk]

/-- All jobs are done if none can be refused. -/
theorem jobs_complete {σ : Type} {s : Schedule} (h : s.refused = none) {ws : List Want}
    {f : σ → Want → σ} {init : σ} :
    (if ws.isEmpty then (init, false) else jobPerKey s ws f init).2 = false := by
  split
  · rfl
  · simp [jobPerKey, h]

/-- With no job refused, what is recorded is what is found for the wants. -/
theorem lookup_jobPerKey {V : Type} {find : Want → Except StoreErr V} {s : Schedule}
    {ws : List Want} {m : GoMap Want V} (h : jobPerKey s ws (recordJob find) ∅ = (m, false))
    {w : Want} {v : V} : m.lookup w = some v ↔ w ∈ ws ∧ find w = .ok v := by
  have hrun : m = (s.order.range ws).foldl (recordJob find) ∅ := by
    unfold jobPerKey at h
    split at h
    · exact (congrArg Prod.fst h).symm
    · rename_i i _
      have hlen : ¬ i < ws.length := by simpa using congrArg Prod.snd h
      rw [List.take_of_length_le (not_lt.mp hlen)] at h
      exact (congrArg Prod.fst h).symm
  rw [hrun, lookup_foldl_recordJob _ _ (by simp), RangeOrder.mem_range]
  simp

/-- The same when no job is made for no wants, as in the two methods. -/
theorem lookup_jobs {V : Type} {find : Want → Except StoreErr V} {s : Schedule} {ws : List Want}
    {m : GoMap Want V}
    (h : (if ws.isEmpty then (∅, false) else jobPerKey s ws (recordJob find) ∅) = (m, false))
    {w : Want} {v : V} : m.lookup w = some v ↔ w ∈ ws ∧ find w = .ok v := by
  split at h
  · rename_i hws
    cases h
    simp [List.isEmpty_iff.mp hws]
  · exact lookup_jobPerKey h

theorem lookup_getBlockSizes {bs : AuthedBlockstore} {s : Schedule} {ws : List Want}
    {m : GoMap Want Nat} (h : getBlockSizes bs s ws = (m, false)) {w : Want} {n : Nat} :
    m.lookup w = some n ↔ w ∈ ws ∧ bs.getSize w.cid = .ok n :=
  lookup_jobs h

theorem lookup_getBlocks {found : Want → Except StoreErr Block} {s : Schedule} {ws : List Want}
    {m : GoMap Want Block} (h : getBlocks found s ws = (m, false)) {w : Want} {b : Block} :
    m.lookup w = some b ↔ w ∈ ws ∧ found w = .ok b :=
  lookup_jobs h

/-- A blockstore that returns the block it is asked for releases the block of the want. -/
theorem AuthedBlockstore.cid_of_lookups {bs : AuthedBlockstore}
    (hsrc : ∀ c b, bs.source.get c = .ok b → b.cid = c) (p : PeerID) (w : Want) (b : Block)
    (h : bs.lookups p w = .ok b) : b.cid = w.cid :=
  hsrc _ _ (AuthedBlockstore.get_eq_ok.mp h).2.1

/-! ## Tasks and envelopes -/

/-- `taskData`. -/
structure TaskData where
  blockSize : Nat
  haveBlock : Bool
  isWantBlock : Bool
  sendDontHave : Bool
  deriving DecidableEq, Repr

/-- `peertask.Task`, with a want for its topic. -/
structure Task where
  topic : Want
  priority : Int
  work : Nat
  data : TaskData
  deriving DecidableEq, Repr

/-- What one `PopTasks` returns, and how the jobs for it are scheduled and the
range over its block tasks goes. -/
structure Pop where
  peer : PeerID
  tasks : List Task
  pendingBytes : Int
  schedule : Schedule
  order : RangeOrder

/-- `Envelope`; the tasks are those that `Sent` reports as done. -/
structure Envelope where
  peer : PeerID
  message : Message
  tasks : List Task

/-- The tasks of a batch, split: the message with its block presences, the
wants to fetch blocks for, and the data of their tasks. -/
structure SplitTasks where
  msg : Message
  blockWants : List Want
  blockTasks : GoMap Want TaskData

/-- One round of the splitting loop of `nextEnvelope`. -/
def splitTask (s : SplitTasks) (t : Task) : SplitTasks :=
  if t.data.haveBlock then
    if t.data.isWantBlock then
      { s with
        blockWants := s.blockWants ++ [t.topic]
        blockTasks := s.blockTasks.insert t.topic t.data }
    else { s with msg := s.msg.addHave t.topic }
  else { s with msg := s.msg.addDontHave t.topic }

/-- A block task with its block fetched. -/
def addFetched (blks : GoMap Want Block) (msg : Message) (t : Want × TaskData) : Message :=
  match blks.lookup t.1 with
  -- the block was not found, or is not to be released
  | none => if t.2.sendDontHave then msg.addDontHave t.1 else msg
  | some blk => msg.addBlock blk t.1.auth

/-- The message for one batch of tasks, or nothing if a job was refused. -/
def batchMessage (found : Want → Except StoreErr Block) (pop : Pop) : Option Message :=
  let s := pop.tasks.foldl splitTask
    ⟨(Message.new false).setPendingBytes (Int32.ofInt pop.pendingBytes), [], ∅⟩
  match getBlocks found pop.schedule s.blockWants with
  | (_, true) => none
  | (blks, false) => some ((pop.order.range s.blockTasks.pairs).foldl (addFetched blks) s.msg)

/-- A batch that is popped, with what becomes of the lookups for it. -/
structure PoppedBatch where
  pop : Pop
  found : Want → Except StoreErr Block

/-- What a call of `nextEnvelope` does: the batches it reports as done by `TasksDone`, the envelope
it returns, and the batches that are left for the next call. -/
structure Popped where
  done : List (PeerID × List Task)
  envelope : Option Envelope
  rest : List PoppedBatch

/-- `nextEnvelope`, for the batches that are popped until the context is done: a batch that makes
an empty message is done with and the next one popped. -/
def nextEnvelope : List PoppedBatch → Popped
  | [] => ⟨[], none, []⟩
  | b :: bs =>
      -- an empty batch is waited out
      if b.pop.tasks.isEmpty then nextEnvelope bs
      else
        match batchMessage b.found b.pop with
        | none => ⟨[], none, bs⟩
        | some msg =>
            if msg.empty then
              let r := nextEnvelope bs
              { r with done := (b.pop.peer, b.pop.tasks) :: r.done }
            else ⟨[], some ⟨b.pop.peer, msg, b.pop.tasks⟩, bs⟩

namespace AuthedBlockstore

/-- A batch that is looked up in a blockstore that stays as it is. -/
def batch (bs : AuthedBlockstore) (pop : Pop) : PoppedBatch := ⟨pop, bs.lookups pop.peer⟩

/-- The envelope that `nextEnvelope` returns while the blockstore stays as it is. -/
def envelope (bs : AuthedBlockstore) (pops : List Pop) : Option Envelope :=
  (nextEnvelope (pops.map bs.batch)).envelope

end AuthedBlockstore

/-! ## Ledgers -/

/-- `ledger`. -/
structure Ledger where
  partner : PeerID
  wantList : Wantlist

namespace Ledger

/-- `newLedger`. -/
def new (p : PeerID) : Ledger := ⟨p, .new⟩

/-- `ledger.Wants`. -/
def wants (l : Ledger) (k : Want) (priority : Int32) (wantType : WantType) : Ledger :=
  { l with wantList := (l.wantList.add k priority wantType).1 }

/-- `ledger.CancelWant`. -/
def cancelWant (l : Ledger) (k : Want) : Ledger × Bool :=
  let r := l.wantList.remove k
  ({ l with wantList := r.1 }, r.2)

/-- `ledger.WantListContains`. -/
def wantListContains (l : Ledger) (k : Want) : Option Wantlist.Entry := l.wantList.contains k

end Ledger

/-- `peerLedger`: for each want the peers that are waiting for it. -/
structure PeerLedger where
  cids : GoMap Want (GoSet PeerID)

namespace PeerLedger

/-- `newPeerLedger`. -/
def new : PeerLedger := ⟨∅⟩

/-- `peerLedger.Wants`. -/
def wants (l : PeerLedger) (p : PeerID) (k : Want) : PeerLedger := ⟨l.cids.link k p⟩

/-- `peerLedger.CancelWant`. -/
def cancelWant (l : PeerLedger) (p : PeerID) (k : Want) : PeerLedger := ⟨l.cids.unlink k p⟩

/-- `peerLedger.Peers`. -/
def peers (l : PeerLedger) (o : RangeOrder) (k : Want) : List PeerID :=
  match l.cids.lookup k with
  | none => []
  | some m => o.range m.keys

/-- The index says that the peer is waiting for the want. -/
def Has (l : PeerLedger) (p : PeerID) (k : Want) : Prop := l.cids.Linked k p

theorem mem_peers {l : PeerLedger} {o : RangeOrder} {p : PeerID} {k : Want} :
    p ∈ l.peers o k ↔ l.Has p k := by
  rw [peers, Has, GoMap.Linked]
  split
  · rename_i h; simp [h]
  · rename_i m h; simp [h, AList.mem_keys]

theorem has_wants {l : PeerLedger} {p q : PeerID} {k w : Want} :
    (l.wants p k).Has q w ↔ (w = k ∧ q = p) ∨ l.Has q w := GoMap.linked_link

theorem has_cancelWant {l : PeerLedger} {p q : PeerID} {k w : Want} :
    (l.cancelWant p k).Has q w ↔ ¬ (w = k ∧ q = p) ∧ l.Has q w := GoMap.linked_unlink

end PeerLedger

/-! ## The engine -/

/-- `Engine`, without its queue, its tags and its score ledger. -/
structure Engine where
  bs : AuthedBlockstore
  maxBlockSizeReplaceHasWithBlock : Nat
  sendDontHaves : Bool
  ledgerMap : GoMap PeerID Ledger
  peerLedger : PeerLedger

/-- The calls made on the request queue. -/
inductive QueueOp where
  | pushTasks (p : PeerID) (tasks : List Task)
  | remove (w : Want) (p : PeerID)

namespace Engine

/-- `newEngine`, with the largest size of a block that is sent for a want-have. -/
def newEngine (bs : AuthedBlockstore) (maxReplaceSize : Nat) : Engine :=
  ⟨bs, maxReplaceSize, true, ∅, .new⟩

/-- `NewEngine`. -/
def new (bs : AuthedBlockstore) : Engine := newEngine bs 1024

/-- `SetSendDontHaves`. -/
def setSendDontHaves (e : Engine) (send : Bool) : Engine := { e with sendDontHaves := send }

/-- `sendAsBlock`. -/
def sendAsBlock (e : Engine) (wantType : WantType) (blockSize : Nat) : Bool :=
  wantType = .wantBlock || blockSize ≤ e.maxBlockSizeReplaceHasWithBlock

/-- `findOrCreate`: the engine with a ledger for the peer, and the ledger. -/
def findOrCreate (e : Engine) (p : PeerID) : Engine × Ledger :=
  match e.ledgerMap.lookup p with
  | some l => (e, l)
  | none => ({ e with ledgerMap := e.ledgerMap.insert p (.new p) }, .new p)

/-- A ledger that is read and written under its lock. -/
def setLedger (e : Engine) (p : PeerID) (l : Ledger) : Engine :=
  { e with ledgerMap := e.ledgerMap.insert p l }

/-- The task for a want whose block is there. -/
def foundTask (e : Engine) (c : Want) (priority : Int32) (wantType : WantType) (blockSize : Nat)
    (sendDontHave : Bool) : Task :=
  let isWantBlock := e.sendAsBlock wantType blockSize
  { topic := c
    priority := priority.toInt
    work := if isWantBlock then blockSize else blockPresenceSize c
    data := ⟨blockSize, true, isWantBlock, sendDontHave⟩ }

/-! ### `MessageReceived` -/

/-- `splitWantsCancels`. -/
def splitWantsCancels (es : List Message.Entry) : List Message.Entry × List Message.Entry :=
  (es.filter (fun et => !et.cancel), es.filter (fun et => et.cancel))

/-- What `MessageReceived` keeps from its start to its last section. -/
structure Received where
  peer : PeerID
  full : Bool
  wants : List Message.Entry
  cancels : List Message.Entry
  blockSizes : GoMap Want Nat

/-- The start of `MessageReceived`, before any lock: nothing if the block sizes
could not be had. -/
def readMessage (e : Engine) (p : PeerID) (m : Message) (o : RangeOrder) (s : Schedule) :
    Option Received :=
  let wc := splitWantsCancels (m.wantlistEntries o)
  match getBlockSizes e.bs s (wc.1.map (·.want)) with
  | (_, true) => none
  | (sizes, false) => some ⟨p, m.full, wc.1, wc.2, sizes⟩

/-- `MessageReceived`'s update of the index, under the engine's lock. -/
def indexMessage (e : Engine) (r : Received) : Engine :=
  let l := r.wants.foldl (fun l et => l.wants r.peer et.want) e.peerLedger
  { e with peerLedger := r.cancels.foldl (fun l et => l.cancelWant r.peer et.want) l }

/-- The task for one want of a message, if there is to be one. -/
def wantTask (e : Engine) (sizes : GoMap Want Nat) (et : Message.Entry) : Option Task :=
  match sizes.lookup et.want with
  | none =>
      if e.sendDontHaves && et.sendDontHave then
        some
          { topic := et.want
            priority := et.priority.toInt
            work := blockPresenceSize et.want
            data := ⟨0, false, et.wantType = .wantBlock, et.sendDontHave⟩ }
      else none
  | some size => some (e.foundTask et.want et.priority et.wantType size et.sendDontHave)

/-- One round of the cancel loop, under the ledger's lock. -/
def cancelEntry (p : PeerID) (s : Ledger × List QueueOp) (et : Message.Entry) :
    Ledger × List QueueOp :=
  let r := s.1.cancelWant et.want
  (r.1, if r.2 then s.2 ++ [.remove et.want p] else s.2)

/-- `MessageReceived`'s update of the ledger, with what it does to the queue. -/
def ledgerMessage (e : Engine) (r : Received) : Engine × List QueueOp :=
  let f := e.findOrCreate r.peer
  let l := if r.full then { f.2 with wantList := .new } else f.2
  let c := r.cancels.foldl (cancelEntry r.peer) (l, [])
  let l' := r.wants.foldl (fun l et => l.wants et.want et.priority et.wantType) c.1
  let activeEntries := r.wants.filterMap (e.wantTask r.blockSizes)
  (f.1.setLedger r.peer l',
    c.2 ++ if activeEntries.isEmpty then [] else [.pushTasks r.peer activeEntries])

/-- `MessageReceived` with no other call between its sections. -/
def messageReceived (e : Engine) (p : PeerID) (m : Message) (o : RangeOrder) (s : Schedule) :
    Engine × List QueueOp :=
  match e.readMessage p m o s with
  | none => (e, [])
  | some r => (e.indexMessage r).ledgerMessage r

/-! ### `ReceiveFrom` -/

/-- What the scan has found: the tasks it pushed and the wants it missed. -/
structure Scan where
  pushed : List QueueOp
  missingWants : GoMap PeerID (List Want)

/-- One peer of the index, looked up for one block. -/
def scanPeer (e : Engine) (w : Want) (size : Nat) (s : Scan) (p : PeerID) : Scan :=
  let missing : Scan :=
    { s with missingWants := s.missingWants.insert p ((s.missingWants.lookup p).getD [] ++ [w]) }
  match e.ledgerMap.lookup p with
  -- the peer has disconnected meanwhile
  | none => missing
  | some l =>
      match l.wantListContains w with
      -- the peer has cancelled meanwhile
      | none => missing
      | some entry =>
          { s with
            pushed := s.pushed ++
              [.pushTasks p [e.foundTask entry.want entry.priority entry.wantType size false]] }

/-- `ReceiveFrom`'s scan of the index, under the engine's read lock; `o i` is
the order in which the peers of the `i`-th block are visited. -/
def scan (e : Engine) (blks : List AuthBlock) (o : Nat → RangeOrder) : Scan :=
  let blockSizes : GoMap Want Nat := blks.foldl (fun m b => m.insert b.want b.size) ∅
  blks.zipIdx.foldl (fun s b =>
    (e.peerLedger.peers (o b.2) b.1.want).foldl
      (e.scanPeer b.1.want ((blockSizes.lookup b.1.want).getD 0)) s) ⟨[], ∅⟩

/-- One missing want, looked up again: the peer may have come back. -/
def cleanWant (e : Engine) (p : PeerID) (l : PeerLedger) (w : Want) : PeerLedger :=
  match e.ledgerMap.lookup p with
  | some ledger =>
      match ledger.wantListContains w with
      | some _ => l
      | none => l.cancelWant p w
  | none => l.cancelWant p w

/-- `ReceiveFrom`'s clean-up of missing wants, under the engine's lock. -/
def cleanUp (e : Engine) (missingWants : GoMap PeerID (List Want)) (o : RangeOrder) : Engine :=
  { e with
    peerLedger := (o.range missingWants.pairs).foldl
      (fun l m => m.2.foldl (e.cleanWant m.1) l) e.peerLedger }

/-! ### Sending and connecting -/

/-- `MessageSent`: the blocks and the presences of the message, in any order. -/
def messageSent (e : Engine) (p : PeerID) (m : Message) (ob op : RangeOrder) : Engine :=
  let f := e.findOrCreate p
  let wl := (ob.range m.blocks.values).foldl
    (fun wl b => (wl.removeType b.want .wantBlock).1) f.2.wantList
  let wl' := (op.range m.blockPresences.pairs).foldl
    (fun wl bp => if bp.2 = .HAVE then (wl.removeType bp.1 .wantHave).1 else wl) wl
  f.1.setLedger p { f.2 with wantList := wl' }

/-- `PeerConnected`. -/
def peerConnected (e : Engine) (p : PeerID) : Engine :=
  if p ∈ e.ledgerMap then e else { e with ledgerMap := e.ledgerMap.insert p (.new p) }

/-- `PeerDisconnected`. -/
def peerDisconnected (e : Engine) (p : PeerID) (o : RangeOrder) : Engine :=
  let l := match e.ledgerMap.lookup p with
    | none => e.peerLedger
    | some ledger =>
        (ledger.wantList.entries o).foldl (fun l entry => l.cancelWant p entry.want) e.peerLedger
  { e with ledgerMap := e.ledgerMap.erase p, peerLedger := l }

end Engine

end BitswapAuth
