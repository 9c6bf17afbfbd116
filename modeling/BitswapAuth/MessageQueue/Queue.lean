/-
# `BitswapAuth.MessageQueue.Queue` — the queue of wants for one peer

The package `messagequeue`: what is kept for one remote peer, and how it turns
into messages.  Two recall wantlists (targeted wants and broadcast wants) move
a want from `pending` to `sent`; the set `cancels` holds the wants whose cancel
still has to go out.

`extractOutgoingMessage` takes the lock twice.  It is modelled in the three
pieces the lock makes of it,

    snapshot      under the lock: copy what is pending
    buildMessage  unlocked: fill the message up to the maximum size
    finish        under the lock: mark as sent what is still as it was copied

and their composition is the call with nothing in between.  Each range over a
map is given the order it visits in, so that which wants fit into a message
that is cut short is left open as it is in the source.
-/
import BitswapAuth.Message

namespace BitswapAuth

open Lib

/-- `recallWantlist`. -/
structure RecallWantlist where
  pending : Wantlist
  sent : Wantlist
  sentAt : GoMap Want Time

namespace RecallWantlist

/-- `newRecallWantList`. -/
def new : RecallWantlist := ⟨.new, .new, ∅⟩

/-- `recallWantlist.Add`. -/
def add (r : RecallWantlist) (c : Want) (priority : Int32) (t : WantType) : RecallWantlist :=
  { r with pending := (r.pending.add c priority t).1 }

/-- `recallWantlist.Remove`. -/
def remove (r : RecallWantlist) (c : Want) : RecallWantlist :=
  ⟨(r.pending.remove c).1, (r.sent.remove c).1, r.sentAt.erase c⟩

/-- `recallWantlist.RemoveType`. -/
def removeType (r : RecallWantlist) (c : Want) (t : WantType) : RecallWantlist :=
  let sent := (r.sent.removeType c t).1
  ⟨(r.pending.removeType c t).1, sent, if c ∈ sent then r.sentAt else r.sentAt.erase c⟩

/-- `recallWantlist.MarkSent`: whether the want was still pending, and the move
to the sent list if so. -/
def markSent (r : RecallWantlist) (e : Wantlist.Entry) : RecallWantlist × Bool :=
  match r.pending.removeType e.want e.wantType with
  | (_, false) => (r, false)
  | (pending, true) =>
      ({ r with pending := pending, sent := (r.sent.add e.want e.priority e.wantType).1 }, true)

/-- A want is recorded in the list. -/
def Tracks (r : RecallWantlist) (w : Want) : Prop := w ∈ r.pending ∨ w ∈ r.sent

theorem mem_pending_remove {r : RecallWantlist} {c w : Want} :
    w ∈ (r.remove c).pending ↔ w ≠ c ∧ w ∈ r.pending := Wantlist.mem_remove

theorem mem_sent_remove {r : RecallWantlist} {c w : Want} :
    w ∈ (r.remove c).sent ↔ w ≠ c ∧ w ∈ r.sent := Wantlist.mem_remove

theorem tracks_remove {r : RecallWantlist} {c w : Want} :
    (r.remove c).Tracks w ↔ w ≠ c ∧ r.Tracks w := by
  simp only [Tracks, mem_pending_remove, mem_sent_remove]
  tauto

theorem tracks_add {r : RecallWantlist} {c w : Want} {p : Int32} {t : WantType} :
    (r.add c p t).Tracks w ↔ w = c ∨ r.Tracks w := by
  simp only [Tracks, add, Wantlist.mem_add]
  tauto

/-- Marking as sent takes a want from the pending to the sent list or changes
nothing. -/
theorem markSent_cases (r : RecallWantlist) (e : Wantlist.Entry) :
    (r.markSent e = (r, false)) ∨
    (∃ r', r.markSent e = (r', true) ∧ e.want ∈ r.pending ∧
      (∀ w, w ∈ r'.pending ↔ w ≠ e.want ∧ w ∈ r.pending) ∧
      (∀ w, w ∈ r'.sent ↔ w = e.want ∨ w ∈ r.sent)) := by
  rw [markSent]
  cases h : r.pending.removeType e.want e.wantType with
  | mk pending b =>
      cases b with
      | false => exact .inl rfl
      | true =>
          refine .inr ⟨_, rfl, ?_⟩
          have h₁ : pending = (r.pending.removeType e.want e.wantType).1 := by rw [h]
          obtain ⟨e', he', hne⟩ := Wantlist.removeType_snd.mp (congrArg Prod.snd h)
          refine ⟨Wantlist.mem_iff.mpr ⟨e', he'⟩, fun w => ?_, fun w => Wantlist.mem_add⟩
          show w ∈ pending ↔ _
          rw [h₁, Wantlist.mem_removeType]
          constructor
          · rintro ⟨hw, himp⟩
            refine ⟨fun hwe => ?_, hw⟩
            obtain ⟨e'', he'', ht⟩ := himp hwe
            obtain rfl : e' = e'' := Option.some.inj (he'.symm.trans he'')
            exact hne ht
          · rintro ⟨hwe, hw⟩
            exact ⟨hw, fun h' => absurd h' hwe⟩

end RecallWantlist

/-- `MessageQueue`, the fields behind `wllock` and the message that is reused. -/
structure MessageQueue where
  maxMessageSize : Nat
  bcstWants : RecallWantlist
  peerWants : RecallWantlist
  cancels : GoSet Want
  priority : Int32
  msg : Message

namespace MessageQueue

/-- `newMessageQueue`. -/
def new (maxMsgSize : Nat) : MessageQueue :=
  ⟨maxMsgSize, .new, .new, ∅, 2147483647, .new false⟩

/-! ## Adding wants and cancels -/

/-- One round of the loop of `AddBroadcastWantHaves`. -/
def addBroadcastWantHave (mq : MessageQueue) (c : Want) : MessageQueue :=
  { mq with
    bcstWants := mq.bcstWants.add c mq.priority .wantHave
    priority := mq.priority - 1
    -- the want overrides a cancel that has not gone out
    cancels := mq.cancels.remove c }

/-- `AddBroadcastWantHaves`. -/
def addBroadcastWantHaves (mq : MessageQueue) (wantHaves : List Want) : MessageQueue :=
  wantHaves.foldl addBroadcastWantHave mq

/-- One round of the two loops of `AddWants`. -/
def addWant (t : WantType) (mq : MessageQueue) (c : Want) : MessageQueue :=
  { mq with
    peerWants := mq.peerWants.add c mq.priority t
    priority := mq.priority - 1
    cancels := mq.cancels.remove c }

/-- `AddWants`. -/
def addWants (mq : MessageQueue) (wantBlocks wantHaves : List Want) : MessageQueue :=
  wantBlocks.foldl (addWant .wantBlock) (wantHaves.foldl (addWant .wantHave) mq)

/-- One round of the loop of `AddCancels`: a cancel goes out only if a want
was sent. -/
def addCancel (mq : MessageQueue) (c : Want) : MessageQueue :=
  let wasSent := c ∈ mq.bcstWants.sent ∨ c ∈ mq.peerWants.sent
  { mq with
    bcstWants := mq.bcstWants.remove c
    peerWants := mq.peerWants.remove c
    cancels := if wasSent then mq.cancels.add c else mq.cancels }

/-- `AddCancels`. -/
def addCancels (mq : MessageQueue) (cancelKs : List Want) : MessageQueue :=
  cancelKs.foldl addCancel mq

/-- `transferRebroadcastWants`. -/
def transferRebroadcastWants (mq : MessageQueue) (ob op : RangeOrder) : MessageQueue :=
  if mq.bcstWants.sent.len = 0 ∧ mq.peerWants.sent.len = 0 then mq
  else
    { mq with
      bcstWants := { mq.bcstWants with pending := mq.bcstWants.pending.absorb ob mq.bcstWants.sent }
      peerWants :=
        { mq.peerWants with pending := mq.peerWants.pending.absorb op mq.peerWants.sent } }

/-- `pendingWorkCount`. -/
def pendingWorkCount (mq : MessageQueue) : Nat :=
  mq.bcstWants.pending.len + mq.peerWants.pending.len + mq.cancels.len

/-! ## Extracting a message -/

/-- What `extractOutgoingMessage` copies under the lock. -/
structure Snapshot where
  peerEntries : List Wantlist.Entry
  bcstEntries : List Wantlist.Entry
  cancels : List Want

/-- The orders of the three ranges of one extraction. -/
structure Orders where
  peer : RangeOrder
  bcst : RangeOrder
  cancels : RangeOrder

/-- The want-haves that a peer without HAVE support is not sent. -/
def dropWantHave (r : RecallWantlist) (e : Wantlist.Entry) : RecallWantlist :=
  if e.wantType = .wantHave then r.removeType e.want .wantHave else r

/-- The first locked section of `extractOutgoingMessage`. -/
def snapshot (mq : MessageQueue) (o : Orders) (supportsHave : Bool) : MessageQueue × Snapshot :=
  let peerEntries := mq.peerWants.pending.entries o.peer
  let bcstEntries := mq.bcstWants.pending.entries o.bcst
  let cancels := o.cancels.range mq.cancels.keys
  if supportsHave then (mq, ⟨peerEntries, bcstEntries, cancels⟩)
  else
    ({ mq with peerWants := peerEntries.foldl dropWantHave mq.peerWants },
      ⟨peerEntries.filter (fun e => e.wantType ≠ .wantHave), bcstEntries, cancels⟩)

/-- One of the three filling loops: items are added until the size reaches the
maximum.  It gives the message, its size, the items that went in, and whether
the loop was left by `goto FINISH`. -/
def fill {α : Type} (maxMessageSize : Nat) (add : Message → α → Message × Nat) :
    Message → Nat → List α → Message × Nat × List α × Bool
  | msg, size, [] => (msg, size, [], false)
  | msg, size, x :: xs =>
      let r := add msg x
      if size + r.2 ≥ maxMessageSize then (r.1, size + r.2, [x], true)
      else
        let s := fill maxMessageSize add r.1 (size + r.2) xs
        (s.1, s.2.1, x :: s.2.2.1, s.2.2.2)

/-- The message of one extraction with the items it was filled with. -/
structure Built where
  msg : Message
  sentPeerEntries : List Wantlist.Entry
  sentBcstEntries : List Wantlist.Entry
  sentCancels : List Want

/-- Entries are sorted only if they may not all fit. -/
def sortIfNeeded (maxMessageSize msgSize : Nat) (es : List Wantlist.Entry) : List Wantlist.Entry :=
  if msgSize + es.length * Message.maxEntrySize > maxMessageSize then Wantlist.sortEntries es
  else es

/-- A targeted entry in the message. -/
def addPeerEntry (msg : Message) (e : Wantlist.Entry) : Message × Nat :=
  msg.addEntry e.want e.priority e.wantType true

/-- A broadcast entry in the message: a want-have, or a want-block for a peer
that does not know HAVE. -/
def addBcstEntry (supportsHave : Bool) (msg : Message) (e : Wantlist.Entry) : Message × Nat :=
  msg.addEntry e.want e.priority (if supportsHave then .wantHave else .wantBlock) false

/-- The unlocked part of `extractOutgoingMessage`: cancels, then targeted wants,
then broadcast wants. -/
def buildMessage (maxMessageSize : Nat) (msg : Message) (supportsHave : Bool) (s : Snapshot) :
    Built :=
  let c := fill maxMessageSize Message.cancel msg 0 s.cancels
  if c.2.2.2 then ⟨c.1, [], [], c.2.2.1⟩
  else
    let p := fill maxMessageSize addPeerEntry c.1 c.2.1
      (sortIfNeeded maxMessageSize c.2.1 s.peerEntries)
    if p.2.2.2 then ⟨p.1, p.2.2.1, [], c.2.2.1⟩
    else
      let b := fill maxMessageSize (addBcstEntry supportsHave) p.1 p.2.1
        (sortIfNeeded maxMessageSize p.2.1 s.bcstEntries)
      ⟨b.1, p.2.2.1, b.2.2.1, c.2.2.1⟩

/-- One entry at `FINISH`: marked as sent, or taken out of the message because
it changed. -/
def finishEntry (s : RecallWantlist × Message) (e : Wantlist.Entry) : RecallWantlist × Message :=
  match s.1.markSent e with
  | (r, true) => (r, s.2)
  | (_, false) => (s.1, s.2.remove e.want)

/-- One cancel at `FINISH`. -/
def finishCancel (s : GoSet Want × Message) (c : Want) : GoSet Want × Message :=
  if s.1.has c then (s.1.remove c, s.2) else (s.1, s.2.remove c)

/-- The second locked section of `extractOutgoingMessage`, with the message it
returns. -/
def finish (mq : MessageQueue) (b : Built) : MessageQueue × Message :=
  let p := b.sentPeerEntries.foldl finishEntry (mq.peerWants, b.msg)
  let t := b.sentBcstEntries.foldl finishEntry (mq.bcstWants, p.2)
  let c := b.sentCancels.foldl finishCancel (mq.cancels, t.2)
  ({ mq with peerWants := p.1, bcstWants := t.1, cancels := c.1, msg := c.2 }, c.2)

/-- `extractOutgoingMessage` with no call between its two locked sections. -/
def extractOutgoingMessage (mq : MessageQueue) (o : Orders) (supportsHave : Bool) :
    MessageQueue × Message :=
  let s := mq.snapshot o supportsHave
  s.1.finish (buildMessage s.1.maxMessageSize s.1.msg supportsHave s.2)

/-- The extraction as `sendMessage` makes it: the message's fields are cleared
once it has been handed over. -/
def extract (mq : MessageQueue) (o : Orders) (supportsHave : Bool) : MessageQueue × Message :=
  let r := mq.extractOutgoingMessage o supportsHave
  ({ r.1 with msg := r.1.msg.reset false }, r.2)

end MessageQueue

end BitswapAuth
