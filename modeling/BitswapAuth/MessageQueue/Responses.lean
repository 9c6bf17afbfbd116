/-
# `BitswapAuth.MessageQueue.Responses` — an answered want may still time out

The message queue with its timeout manager.  The run loop sends a message in stages,
with the locks free in between, and afterwards hands the want-blocks of it to the
manager; a response of the peer goes through a channel to the same loop.

    loop at         next
    select          sendIfReady, rebroadcast, handle
    extracting      snapshot: copy what is pending
    building        finish: mark as sent, drop what changed
    sending         sendMsg
    sent            onSent: note the time
    simulating      simulate: the want-blocks that are still wanted
    adding          addPending, and enqueue when the manager's lock is free
    responding      record: the latency of the earliest request that is answered
    measured        updateLatency

A response is used for its latency alone.  That the want need not be waited for any
longer the manager learns from `AddCancels`, which is another call, made by whoever
wants the block, or from nobody: a HAVE or a DONT_HAVE leads to no cancel.  So what was
answered may be reported as timed out (`reported_after_response`).

`Steps` says once what a step can do; what holds in every run is derived from it, in
`MessageQueue.Bookkeeping` and `MessageQueue.Answered`.

When the loop comes to send, which the timers for debouncing and rebroadcasting decide,
is left open: it may whenever it is at its `select`.
-/
import BitswapAuth.MessageQueue.TimeoutRun
import BitswapAuth.MessageQueue.Window

namespace BitswapAuth

open Lib

namespace RecallWantlist

/-- `recallWantlist.SentAt`. -/
def recordSentAt (r : RecallWantlist) (c : Want) (now : Time) : RecallWantlist :=
  if c ∈ r.sent then
    if c ∈ r.sentAt then r else { r with sentAt := r.sentAt.insert c now }
  else r

/-- `recallWantlist.ClearSentAt`. -/
def clearSentAt (r : RecallWantlist) (c : Want) : RecallWantlist :=
  { r with sentAt := r.sentAt.erase c }

/-- One entry of `onSent`. -/
def onSentEntry (now : Time) (r : RecallWantlist) (e : Wantlist.Entry) : RecallWantlist :=
  if e.want.defined then r.recordSentAt e.want now else r

/-- One key of a response: the earliest time so far, if the want was sent before it and not
too long ago. -/
def answer (maxValidLatency : Int) (now : Time) (r : RecallWantlist) (earliest : Option Time)
    (c : Want) : RecallWantlist × Option Time :=
  match r.sentAt.lookup c with
  | none => (r, earliest)
  | some sent =>
      (r.clearSentAt c,
        if (∀ t ∈ earliest, sent < t) ∧ (now : Int) - sent < maxValidLatency then some sent
        else earliest)

end RecallWantlist

namespace MessageQueue

/-- `onSent`, for the entries that were marked as sent. -/
def onSent (mq : MessageQueue) (peerEntries bcstEntries : List Wantlist.Entry) (now : Time) :
    MessageQueue :=
  { mq with
    peerWants := peerEntries.foldl (RecallWantlist.onSentEntry now) mq.peerWants
    bcstWants := bcstEntries.foldl (RecallWantlist.onSentEntry now) mq.bcstWants }

/-- The locked section of `simulateDontHaveWithTimeout`: the want-blocks of the message that
are to be answered and have not been cancelled meanwhile. -/
def simulateDontHaveWithTimeout (mq : MessageQueue) (wantlist : List Message.Entry) : List Want :=
  (wantlist.filter fun e =>
    e.wantType = .wantBlock ∧ e.sendDontHave = true ∧ e.want ∈ mq.peerWants.sent).map (·.want)

/-- One round of the loop of `handleResponse`. -/
def handleKey (maxValidLatency : Int) (now : Time) (s : MessageQueue × Option Time) (c : Want) :
    MessageQueue × Option Time :=
  let b := s.1.bcstWants.answer maxValidLatency now s.2 c
  let p := s.1.peerWants.answer maxValidLatency now b.2 c
  ({ s.1 with bcstWants := b.1, peerWants := p.1 }, p.2)

/-- The locked section of `handleResponse`, with the earliest time a want of the response
was sent. -/
def handleResponse (mq : MessageQueue) (maxValidLatency : Int) (now : Time) (ks : List Want) :
    MessageQueue × Option Time :=
  ks.foldl (handleKey maxValidLatency now) (mq, none)

end MessageQueue

open MessageQueue in
/-- Where the run loop is. -/
inductive QueueLoop where
  | select
  | extracting
  | building (supportsHave : Bool) (s : Snapshot)
  | sending (peerEntries bcstEntries : List Wantlist.Entry) (message : Message)
  | sent (peerEntries bcstEntries : List Wantlist.Entry) (message : Message) (now : Time)
  | simulating (message : Message)
  | adding (wants : List Want)
  | enqueuing
  | responding (ks : List Want) (now : Time)
  | measured (elapsed : Int)
  | stopped

/-- `MessageQueue` and its timeout manager at work. -/
structure TimedQueue where
  mq : MessageQueue
  timeouts : Timeouts
  maxValidLatency : Int
  ctxDone : Bool
  responses : List (List Want)
  loop : QueueLoop
  /-- The calls of `AddCancels` that have yet to take the queue's lock. -/
  cancelling : List (List Want)
  /-- The wants that have been sent as want-blocks. -/
  sentBlocks : List Want
  /-- The wants that were answered in time, and have not been sent again since. -/
  answered : List Want
  /-- Those of them that have not been cancelled since either. -/
  uncancelled : List Want
  /-- The reports of such wants as timed out. -/
  late : List Want

namespace TimedQueue

inductive Act where
  | addWants (wantBlocks wantHaves : List Want)
  | addBroadcastWantHaves (wantHaves : List Want)
  | addCancels (cancelKs : List Want)
  /-- One of the calls of `AddCancels` goes on. -/
  | removeCancelled (i : Nat)
  | responseReceived (ks : List Want)
  /-- The sender, if there is one, says the latency of its connection. -/
  | sendIfReady (conn : Option Int)
  | rebroadcast (ob op : RangeOrder) (conn : Option Int)
  | snapshot (o : MessageQueue.Orders) (supportsHave : Bool)
  | finish
  | sendMsg (ok : Bool)
  | onSent
  | simulate (o : RangeOrder)
  | addPending
  | enqueue
  | handle
  | record
  | updateLatency
  | shutdown
  | exit
  | stop
  /-- The manager goes on by itself. -/
  | timeouts (a : Timeouts.Act)

/-- The size of `responses`. -/
def responsesSize : Nat := 8

/-- What the manager does by itself, with the clock. -/
def ownAct : Timeouts.Act → Bool
  | .tick _ | .pinged _ | .fire | .receive | .check => true
  | _ => false

/-- The manager is waiting for the want, and it is not due. -/
def Awaited (s : TimedQueue) (w : Want) : Prop :=
  ∃ pw ∈ s.timeouts.mgr.wantQueue, pw.active = true ∧ pw.c = w ∧
    ¬ pw.Due s.timeouts.mgr.timeout s.timeouts.now

instance (s : TimedQueue) (w : Want) : Decidable (s.Awaited w) :=
  inferInstanceAs (Decidable (∃ pw ∈ s.timeouts.mgr.wantQueue, pw.active = true ∧ pw.c = w ∧
    ¬ pw.Due s.timeouts.mgr.timeout s.timeouts.now))

/-- A step of the manager, with the reports of wants that were answered. -/
def advance (s : TimedQueue) (a : Timeouts.Act) : TimedQueue :=
  { s with
    timeouts := s.timeouts.step a
    late := s.late ++ (((s.timeouts.step a).checks.drop s.timeouts.checks.length).flatMap
      Check.expired).filter (· ∈ s.answered) }

/-- `sendMessage` up to its first lock. -/
def beginSend (s : TimedQueue) (conn : Option Int) : TimedQueue :=
  match conn with
  | none => { s with ctxDone := true }
  | some latency => { s with loop := .extracting }.advance (.start latency)

/-- The wants of a response that are answered in time. -/
def inTime (s : TimedQueue) (ks : List Want) : List Want :=
  ks.filter fun w => w ∈ s.sentBlocks ∧ s.Awaited w

/-- The fields of the message are cleared and the loop goes on. -/
def endSend (s : TimedQueue) : TimedQueue :=
  { s with mq := { s.mq with msg := s.mq.msg.reset false }, loop := .select }

/-- The message has gone out. -/
def noteSent (s : TimedQueue) (message : Message) : TimedQueue :=
  { s with
    sentBlocks := s.sentBlocks ++ (message.wantlist.values.filter fun e =>
      e.wantType = .wantBlock ∧ e.cancel = false).map (·.want)
    answered := s.answered.filter fun w => message.flag w ≠ some false
    uncancelled := s.uncancelled.filter fun w => message.flag w ≠ some false }

def step (s : TimedQueue) : Act → TimedQueue
  | .addWants wantBlocks wantHaves => { s with mq := s.mq.addWants wantBlocks wantHaves }
  | .addBroadcastWantHaves wantHaves => { s with mq := s.mq.addBroadcastWantHaves wantHaves }
  | .addCancels cancelKs =>
      if cancelKs.isEmpty then s
      else
        { s with
          cancelling := s.cancelling ++ [cancelKs]
          uncancelled := s.uncancelled.filter (· ∉ cancelKs) }.advance (.cancelPending cancelKs)
  | .removeCancelled i =>
      match s.cancelling[i]? with
      | none => s
      | some ks => { s with mq := s.mq.addCancels ks, cancelling := s.cancelling.eraseIdx i }
  | .responseReceived ks =>
      -- what does not fit into the channel is ignored
      if ks.isEmpty ∨ responsesSize ≤ s.responses.length then s
      else { s with responses := s.responses ++ [ks] }
  | .sendIfReady conn =>
      match s.loop with
      | .select => if 0 < s.mq.pendingWorkCount then s.beginSend conn else s
      | _ => s
  | .rebroadcast ob op conn =>
      match s.loop with
      | .select =>
          if s.mq.bcstWants.sent.len = 0 ∧ s.mq.peerWants.sent.len = 0 then s
          else { s with mq := s.mq.transferRebroadcastWants ob op }.beginSend conn
      | _ => s
  | .snapshot o supportsHave =>
      match s.loop with
      | .extracting =>
          let r := s.mq.snapshot o supportsHave
          { s with mq := r.1, loop := .building supportsHave r.2 }
      | _ => s
  | .finish =>
      match s.loop with
      | .building supportsHave snap =>
          let b := MessageQueue.buildMessage s.mq.maxMessageSize s.mq.msg supportsHave snap
          let r := s.mq.finish b
          if r.2.empty then { s with mq := r.1 }.endSend
          else
            { s with
              mq := r.1
              loop := .sending (s.mq.peerWants.marked b.sentPeerEntries)
                (s.mq.bcstWants.marked b.sentBcstEntries) r.2 }
      | _ => s
  | .sendMsg ok =>
      match s.loop with
      | .sending peerEntries bcstEntries message =>
          if ok then
            { s with loop := .sent peerEntries bcstEntries message s.timeouts.now }.noteSent
              message
          else { s with ctxDone := true }.endSend
      | _ => s
  | .onSent =>
      match s.loop with
      | .sent peerEntries bcstEntries message now =>
          { s with mq := s.mq.onSent peerEntries bcstEntries now, loop := .simulating message }
      | _ => s
  | .simulate o =>
      match s.loop with
      | .simulating message =>
          { s with
            loop := .adding (s.mq.simulateDontHaveWithTimeout (message.wantlistEntries o)) }
      | _ => s
  | .addPending =>
      match s.loop with
      | .adding wants =>
          if wants.isEmpty then s.endSend
          else { s with loop := .enqueuing }.advance (.addPending wants)
      | _ => s
  | .enqueue =>
      match s.loop with
      | .enqueuing => s.endSend.advance .enqueue
      | _ => s
  | .handle =>
      match s.loop, s.responses with
      | .select, ks :: rest =>
          { s with responses := rest, loop := .responding ks s.timeouts.now }
      | _, _ => s
  | .record =>
      match s.loop with
      | .responding ks now =>
          let r := s.mq.handleResponse s.maxValidLatency now ks
          { s with
            mq := r.1
            loop := match r.2 with
              | none => .select
              | some earliest => .measured ((now : Int) - earliest)
            answered := s.answered ++ s.inTime ks
            uncancelled := s.uncancelled ++ s.inTime ks }
      | _ => s
  | .updateLatency =>
      match s.loop with
      | .measured elapsed => { s with loop := .select }.advance (.updateMessageLatency elapsed)
      | _ => s
  | .shutdown => { s with ctxDone := true }
  | .exit =>
      match s.loop with
      | .select => if s.ctxDone then { s with loop := .stopped }.advance .shutdown else s
      | _ => s
  | .stop =>
      match s.loop with
      | .stopped => s.advance .stop
      | _ => s
  | .timeouts a => if ownAct a then s.advance a else s

/-- A queue that has been started up. -/
def init (maxMsgSize : Nat) (maxValidLatency : Int) (p : TimeoutParams) : TimedQueue :=
  ⟨.new maxMsgSize, .init p, maxValidLatency, false, [], .select, [], [], [], [], []⟩

/-! ## What a step can do -/

/-- What each act can do, and where the loop is for it. -/
inductive Steps (s : TimedQueue) : Act → TimedQueue → Prop where
  | stay {a : Act} : Steps s a s
  | called {a : Act} (b : MessageQueue.Add) (cancelling : List (List Want)) :
      Steps s a { s with mq := s.mq.add b, cancelling := cancelling }
  | cancels (ks : List Want) : Steps s (.addCancels ks)
      ({ s with
          cancelling := s.cancelling ++ [ks]
          uncancelled := s.uncancelled.filter (· ∉ ks) }.advance (.cancelPending ks))
  | received {a : Act} (responses : List (List Want)) : Steps s a { s with responses := responses }
  | sends (hl : s.loop = .select) (conn : Option Int) :
      Steps s (.sendIfReady conn) (s.beginSend conn)
  | rebroadcasts (hl : s.loop = .select) (ob op : RangeOrder) (conn : Option Int) :
      Steps s (.rebroadcast ob op conn)
        ({ s with mq := s.mq.transferRebroadcastWants ob op }.beginSend conn)
  | copies (hl : s.loop = .extracting) (o : MessageQueue.Orders) (sup : Bool) :
      Steps s (.snapshot o sup)
        { s with mq := (s.mq.snapshot o sup).1, loop := .building sup (s.mq.snapshot o sup).2 }
  | discards {sup : Bool} {snap : MessageQueue.Snapshot} (hl : s.loop = .building sup snap) :
      Steps s .finish
        { s with mq := (s.mq.finish (MessageQueue.buildMessage s.mq.maxMessageSize s.mq.msg sup
          snap)).1 }.endSend
  | finishes {sup : Bool} {snap : MessageQueue.Snapshot} {b : MessageQueue.Built}
      (hl : s.loop = .building sup snap)
      (hb : b = MessageQueue.buildMessage s.mq.maxMessageSize s.mq.msg sup snap) :
      Steps s .finish
        { s with
          mq := (s.mq.finish b).1
          loop := .sending (s.mq.peerWants.marked b.sentPeerEntries)
            (s.mq.bcstWants.marked b.sentBcstEntries) (s.mq.finish b).2 }
  | sent {ps bs : List Wantlist.Entry} {m : Message} (hl : s.loop = .sending ps bs m) :
      Steps s (.sendMsg true) ({ s with loop := .sent ps bs m s.timeouts.now }.noteSent m)
  | failed {ps bs : List Wantlist.Entry} {m : Message} (hl : s.loop = .sending ps bs m) :
      Steps s (.sendMsg false) { s with ctxDone := true }.endSend
  | notes {ps bs : List Wantlist.Entry} {m : Message} {now : Time}
      (hl : s.loop = .sent ps bs m now) :
      Steps s .onSent { s with mq := s.mq.onSent ps bs now, loop := .simulating m }
  | simulates {m : Message} (hl : s.loop = .simulating m) (o : RangeOrder) :
      Steps s (.simulate o)
        { s with loop := .adding (s.mq.simulateDontHaveWithTimeout (m.wantlistEntries o)) }
  | ends {ws : List Want} (hl : s.loop = .adding ws) : Steps s .addPending s.endSend
  | adds {ws : List Want} (hl : s.loop = .adding ws) :
      Steps s .addPending ({ s with loop := .enqueuing }.advance (.addPending ws))
  | enqueues (hl : s.loop = .enqueuing) : Steps s .enqueue (s.endSend.advance .enqueue)
  | handles {ks : List Want} {rest : List (List Want)} (hl : s.loop = .select)
      (hr : s.responses = ks :: rest) :
      Steps s .handle { s with responses := rest, loop := .responding ks s.timeouts.now }
  | records {ks : List Want} {now : Time} {loop : QueueLoop} (hl : s.loop = .responding ks now)
      (hloop : loop = .select ∨ ∃ elapsed, loop = .measured elapsed) :
      Steps s .record
        { s with
          mq := (s.mq.handleResponse s.maxValidLatency now ks).1
          loop := loop
          answered := s.answered ++ s.inTime ks
          uncancelled := s.uncancelled ++ s.inTime ks }
  | measures {elapsed : Int} (hl : s.loop = .measured elapsed) :
      Steps s .updateLatency
        ({ s with loop := .select }.advance (.updateMessageLatency elapsed))
  | shutdown : Steps s .shutdown { s with ctxDone := true }
  | exits (hl : s.loop = .select) (hdone : s.ctxDone = true) :
      Steps s .exit ({ s with loop := .stopped }.advance .shutdown)
  | stops (hl : s.loop = .stopped) : Steps s .stop (s.advance .stop)
  | manager {a : Timeouts.Act} (hown : ownAct a = true) : Steps s (.timeouts a) (s.advance a)

section

variable (s : TimedQueue)

theorem steps_addCancels (ks : List Want) : s.Steps (.addCancels ks) (s.step (.addCancels ks)) := by
  unfold step
  dsimp only
  split
  · exact .stay
  · exact .cancels ks

theorem steps_removeCancelled (i : Nat) :
    s.Steps (.removeCancelled i) (s.step (.removeCancelled i)) := by
  unfold step
  dsimp only
  split
  · exact .stay
  · exact .called (.addCancels _) _

theorem steps_responseReceived (ks : List Want) :
    s.Steps (.responseReceived ks) (s.step (.responseReceived ks)) := by
  unfold step
  dsimp only
  split
  · exact .stay
  · exact .received _

theorem steps_sendIfReady (conn : Option Int) :
    s.Steps (.sendIfReady conn) (s.step (.sendIfReady conn)) := by
  unfold step
  dsimp only
  split
  · rename_i hl
    split
    · exact .sends hl conn
    · exact .stay
  · exact .stay

theorem steps_rebroadcast (ob op : RangeOrder) (conn : Option Int) :
    s.Steps (.rebroadcast ob op conn) (s.step (.rebroadcast ob op conn)) := by
  unfold step
  dsimp only
  split
  · rename_i hl
    split
    · exact .stay
    · exact .rebroadcasts hl ob op conn
  · exact .stay

theorem steps_snapshot (o : MessageQueue.Orders) (sup : Bool) :
    s.Steps (.snapshot o sup) (s.step (.snapshot o sup)) := by
  unfold step
  dsimp only
  split
  · rename_i hl
    exact .copies hl o sup
  · exact .stay

theorem steps_finish : s.Steps .finish (s.step .finish) := by
  unfold step
  dsimp only
  split
  · rename_i sup snap hl
    split
    · exact .discards hl
    · exact .finishes hl rfl
  · exact .stay

theorem steps_sendMsg (ok : Bool) : s.Steps (.sendMsg ok) (s.step (.sendMsg ok)) := by
  unfold step
  dsimp only
  split
  · rename_i hl
    cases ok with
    | true => exact .sent hl
    | false => exact .failed hl
  · exact .stay

theorem steps_onSent : s.Steps .onSent (s.step .onSent) := by
  unfold step
  dsimp only
  split
  · rename_i hl
    exact .notes hl
  · exact .stay

theorem steps_simulate (o : RangeOrder) : s.Steps (.simulate o) (s.step (.simulate o)) := by
  unfold step
  dsimp only
  split
  · rename_i hl
    exact .simulates hl o
  · exact .stay

theorem steps_addPending : s.Steps .addPending (s.step .addPending) := by
  unfold step
  dsimp only
  split
  · rename_i hl
    split
    · exact .ends hl
    · exact .adds hl
  · exact .stay

theorem steps_enqueue : s.Steps .enqueue (s.step .enqueue) := by
  unfold step
  dsimp only
  split
  · rename_i hl
    exact .enqueues hl
  · exact .stay

theorem steps_handle : s.Steps .handle (s.step .handle) := by
  unfold step
  dsimp only
  split
  · rename_i hl hr
    exact .handles hl hr
  · exact .stay

theorem steps_record : s.Steps .record (s.step .record) := by
  unfold step
  dsimp only
  split
  · rename_i hl
    refine .records hl ?_
    split
    · exact .inl rfl
    · exact .inr ⟨_, rfl⟩
  · exact .stay

theorem steps_updateLatency : s.Steps .updateLatency (s.step .updateLatency) := by
  unfold step
  dsimp only
  split
  · rename_i hl
    exact .measures hl
  · exact .stay

theorem steps_exit : s.Steps .exit (s.step .exit) := by
  unfold step
  dsimp only
  split
  · rename_i hl
    split
    · rename_i hdone
      exact .exits hl hdone
    · exact .stay
  · exact .stay

theorem steps_stop : s.Steps .stop (s.step .stop) := by
  unfold step
  dsimp only
  split
  · rename_i hl
    exact .stops hl
  · exact .stay

theorem steps_timeouts (a : Timeouts.Act) : s.Steps (.timeouts a) (s.step (.timeouts a)) := by
  unfold step
  dsimp only
  split
  · rename_i hown
    exact .manager hown
  · exact .stay

theorem steps_step (a : Act) : s.Steps a (s.step a) := by
  cases a with
  | addWants bs hs => exact .called (.addWants bs hs) _
  | addBroadcastWantHaves hs => exact .called (.addBroadcastWantHaves hs) _
  | addCancels ks => exact s.steps_addCancels ks
  | removeCancelled i => exact s.steps_removeCancelled i
  | responseReceived ks => exact s.steps_responseReceived ks
  | sendIfReady conn => exact s.steps_sendIfReady conn
  | rebroadcast ob op conn => exact s.steps_rebroadcast ob op conn
  | snapshot o sup => exact s.steps_snapshot o sup
  | finish => exact s.steps_finish
  | sendMsg ok => exact s.steps_sendMsg ok
  | onSent => exact s.steps_onSent
  | simulate o => exact s.steps_simulate o
  | addPending => exact s.steps_addPending
  | enqueue => exact s.steps_enqueue
  | handle => exact s.steps_handle
  | record => exact s.steps_record
  | updateLatency => exact s.steps_updateLatency
  | shutdown => exact .shutdown
  | exit => exact s.steps_exit
  | stop => exact s.steps_stop
  | timeouts a => exact s.steps_timeouts a

end

/-- A want-block is sent, and answered with a DONT_HAVE after a tenth of a second.  The timeout
is now twice that; when it has passed, the want is reported as timed out. -/
theorem reported_after_response :
    let w : Want := ⟨⟨[1]⟩, [7]⟩
    (run step (init 1000 (30000 * millisecond) .default)
      [.addWants [w] [], .sendIfReady (some (40 * millisecond)),
        .snapshot ⟨.stored, .stored, .stored⟩ true, .finish, .sendMsg true, .onSent,
        .simulate .stored, .addPending, .enqueue, .timeouts (.tick (100 * millisecond)),
        .responseReceived [w], .handle, .record, .updateLatency,
        .timeouts (.tick (100 * millisecond)), .timeouts .fire, .timeouts .receive,
        .timeouts .check]).late = [w] := by
  decide

end TimedQueue

end BitswapAuth
