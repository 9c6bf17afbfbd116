/-
# `BitswapAuth.Network.Exchange` — a client's wants in the ledger of a server

A client's message queue, one stream, and the engine of the peer at the other end:

    MessageQueue --extract--> Message --msgToStream--> bytes
    bytes --fromMsgReader--> Message --MessageReceived--> index --> ledger

`MessageQueue.Remote` takes for what the remote peer holds the effect of the messages in
the order they are emitted.  Here the messages are bytes on a stream, are read when the
server comes to it, and are entered in two sections with everything else the engine does
in between.  `ledger_refines` says that the ledger is still what `Link` says it is: when
nothing is under way, the server has the want in its ledger only if `Link` has it, and has
it if it did not answer it.  With that, `ledger_accounted`: a queue that keeps its records
knows of every want it has left with a server.

The stream is not reset.  The server reads its next message when it has dealt with the
last one.  An extraction is one call here, as it is for `Link`: no call of the queue falls between
its two locked sections, as it may in `MessageQueue.Window`.  The condition on the run (`Fits`) is
that the wants have CIDs and auth strings in lower-case hexadecimal of even length, as those that
come from the wire have, that no message exceeds the maximum of the reader, and that the engine is
not being shut down when it looks up block sizes.
-/
import BitswapAuth.MessageQueue.Window
import BitswapAuth.Decision.Disconnect
import BitswapAuth.Network.Stream

namespace BitswapAuth

open Lib

namespace Message

/-! ## Messages with a wantlist only -/

/-- The message has nothing but a wantlist, and that is not a full one. -/
structure Bare (m : Message) : Prop where
  full : m.full = false
  blocks : m.blocks = ∅
  presences : m.blockPresences = ∅

variable {m m' : Message}

theorem bare_reset (m : Message) : (m.reset false).Bare := ⟨rfl, rfl, rfl⟩

theorem Bare.addEntry' (h : m.Bare) (w : Want) (p : Int32) (c : Bool) (t : WantType) (d : Bool) :
    (m.addEntry' w p c t d).1.Bare := by
  obtain ⟨hb, -, hp, hf⟩ := m.tables_addEntry' w p c t d
  exact ⟨hf.trans h.full, hb.trans h.blocks, hp.trans h.presences⟩

theorem Bare.remove (h : m.Bare) (w : Want) : (m.remove w).Bare := ⟨h.full, h.blocks, h.presences⟩

/-- Such a message is fit for the wire if its wants are. -/
theorem Bare.sendable {E : Type} {lib : CidLib} {cast : Bytes → Except E Cid} (h : m.Bare)
    (hw : ∀ w ∈ m.wantlist, w.defined = true ∧ LowerHex w.auth ∧ cast w.cid.str = .ok w.cid) :
    Sendable lib cast m := by
  have hnames : ∀ w ∈ m.names, w ∈ m.wantlist := by
    intro w hmem
    simpa [mem_names, h.blocks, h.presences] using hmem
  have hnone : ∀ (w : Want) (b : AuthBlock), m.blocks.lookup w ≠ some b := by
    intro w b hb
    rw [h.blocks, AList.lookup_empty] at hb
    cases hb
  refine ⟨⟨fun w hmem => (hw w hmem).1, fun w hmem => ?_, fun w b hb => absurd hb (hnone w b),
    fun w b hb => absurd hb (hnone w b), fun w hmem => (hw w (hnames w hmem)).2.1⟩,
    fun w hmem => (hw w (hnames w hmem)).2.2⟩
  rw [h.presences] at hmem
  exact absurd hmem (AList.notMem_empty w)

end Message

namespace MessageQueue

/-! ## What an extraction sends -/

section

variable {mq : MessageQueue}

theorem bare_buildMessage {msg : Message} (h : msg.Bare) (n : Nat) (sup : Bool) (s : Snapshot) :
    (buildMessage n msg sup s).msg.Bare := by
  obtain ⟨cs, ps, bs, -, -, -, heq⟩ := buildMessage_eq n msg sup s
  rw [heq]
  refine run_invariant (fun m e hm => hm.addEntry' _ _ _ _ _) bs ?_
  refine run_invariant (fun m e hm => hm.addEntry' _ _ _ _ _) ps ?_
  exact run_invariant (fun m c hm => hm.addEntry' _ _ _ _ _) cs h

theorem bare_finish {b : Built} (h : b.msg.Bare) (mq : MessageQueue) : (mq.finish b).2.Bare := by
  have hentry : ∀ (s : RecallWantlist × Message) e, s.2.Bare → (finishEntry s e).2.Bare := by
    intro s e hs
    rw [finishEntry]
    split
    · exact hs
    · exact hs.remove _
  have hcancel : ∀ (s : GoSet Want × Message) c, s.2.Bare → (finishCancel s c).2.Bare := by
    intro s c hs
    rw [finishCancel]
    split
    · exact hs
    · exact hs.remove _
  have hp := run_invariant hentry b.sentPeerEntries (s := (mq.peerWants, b.msg)) h
  have ht := run_invariant hentry b.sentBcstEntries (s := (mq.bcstWants, _)) hp
  exact run_invariant hcancel b.sentCancels (s := (mq.cancels, _)) ht

theorem bare_extract (h : mq.msg.Bare) (o : Orders) (sup : Bool) : (mq.extract o sup).2.Bare := by
  refine bare_finish (bare_buildMessage ?_ _ _ _) _
  rw [(snapshot_spec mq o sup).msg]
  exact h

/-- What a message names was recorded. -/
theorem tracked_of_mem_extract (hcl : mq.Clear) {o : Orders} {sup : Bool} {w : Want}
    (hw : w ∈ (mq.extract o sup).2.wantlist) : mq.Tracked w := by
  have hs := snapshot_spec mq o sup
  have hmsg : ∀ w, (mq.snapshot o sup).1.msg.flag w = none := by rw [hs.msg]; exact hcl
  have hb := buildMessage_spec (mq.snapshot o sup).1.maxMessageSize sup (mq.snapshot o sup).2 hmsg
  have hw' : w ∈ ((mq.snapshot o sup).1.finish (buildMessage (mq.snapshot o sup).1.maxMessageSize
    (mq.snapshot o sup).1.msg sup (mq.snapshot o sup).2)).2.wantlist := hw
  generalize buildMessage (mq.snapshot o sup).1.maxMessageSize (mq.snapshot o sup).1.msg sup
    (mq.snapshot o sup).2 = b at hb hw'
  have hcancels : ∀ c ∈ b.sentCancels, c ∈ (mq.snapshot o sup).1.cancels := by
    rw [hs.cancels]
    exact fun c hc => hs.copied.2 c (hb.cancels.subset hc)
  have hf := finish_spec (mq.snapshot o sup).1 b (hs.copied.1.sublist hb.cancels.sublist) hcancels
  have hflag : ((mq.snapshot o sup).1.finish b).2.flag w ≠ none := by
    intro hnone
    rcases Message.mem_wantlist_iff_flag.mp hw' with h | h <;> cases hnone.symm.trans h
  by_cases hin : w ∈ b.sentPeerEntries.map (·.want) ∨ w ∈ b.sentBcstEntries.map (·.want)
  · rcases hf.entry w hin with hnone | hp | ht
    · exact absurd hnone hflag
    · exact .inl ((hs.peerWants w).mp hp).1
    · rw [hs.bcstWants] at ht
      exact .inr (.inl ht)
  · obtain ⟨hnp, hnb⟩ := not_or.mp hin
    rw [hf.other w hnp hnb, hb.flag, if_neg hin] at hflag
    have hsent : w ∈ b.sentCancels := by
      by_contra hno
      exact hflag (if_neg hno)
    rw [hs.cancels] at hcancels
    exact .inr (.inr (hcancels w hsent))

/-- The wants that a call adds. -/
def Add.wants : Add → List Want
  | .addWants wantBlocks wantHaves => wantBlocks ++ wantHaves
  | .addBroadcastWantHaves wantHaves => wantHaves
  | .addCancels _ => []

theorem tracked_addWant {t : WantType} {c w : Want} (h : (mq.addWant t c).Tracked w) :
    w = c ∨ mq.Tracked w := by
  rcases h with h | h | h
  · exact (RecallWantlist.tracks_add.mp h).imp_right .inl
  · exact .inr (.inr (.inl h))
  · exact .inr (.inr (.inr (GoSet.mem_remove.mp h).2))

theorem tracked_addBroadcastWantHave {c w : Want} (h : (mq.addBroadcastWantHave c).Tracked w) :
    w = c ∨ mq.Tracked w := by
  rcases h with h | h | h
  · exact .inr (.inl h)
  · exact (RecallWantlist.tracks_add.mp h).imp_right fun h => .inr (.inl h)
  · exact .inr (.inr (.inr (GoSet.mem_remove.mp h).2))

/-- A loop that records nothing but the wants it goes over. -/
theorem tracked_foldl {f : MessageQueue → Want → MessageQueue} {w : Want}
    (hf : ∀ {mq : MessageQueue} {c : Want}, (f mq c).Tracked w → w = c ∨ mq.Tracked w) :
    ∀ (cs : List Want) {mq : MessageQueue}, (cs.foldl f mq).Tracked w → w ∈ cs ∨ mq.Tracked w
  | [], _, h => .inr h
  | c :: cs, mq, h => by
      rcases tracked_foldl hf cs h with h | h
      · exact .inl (List.mem_cons_of_mem c h)
      · refine (hf h).imp_left fun heq => ?_
        rw [heq]
        exact List.mem_cons_self

theorem tracked_add {a : Add} {w : Want} (h : (mq.add a).Tracked w) :
    w ∈ a.wants ∨ mq.Tracked w := by
  cases a with
  | addWants wantBlocks wantHaves =>
      rcases tracked_foldl tracked_addWant wantBlocks h with h | h
      · exact .inl (List.mem_append_left _ h)
      · exact (tracked_foldl tracked_addWant wantHaves h).imp_left (List.mem_append_right _)
  | addBroadcastWantHaves wantHaves => exact tracked_foldl tracked_addBroadcastWantHave wantHaves h
  | addCancels ks =>
      have h' := (tracked_addCancels ks mq w).mp h
      split at h'
      · rcases h' with hb | hp | hc
        · exact .inr (.inr (.inl (.inr hb)))
        · exact .inr (.inl (.inr hp))
        · exact .inr (.inr (.inr hc))
      · exact .inr h'

theorem tracked_transferRebroadcastWants {ob op : RangeOrder} {w : Want}
    (h : (mq.transferRebroadcastWants ob op).Tracked w) : mq.Tracked w := by
  rw [transferRebroadcastWants] at h
  split at h
  · exact h
  · simpa only [Tracked, tracks_absorb] using h

theorem tracked_extract (hap : mq.Apart) (hcl : mq.Clear) {o : Orders} {sup : Bool} {w : Want}
    (h : (mq.extract o sup).1.Tracked w) : mq.Tracked w := by
  have he := extract_spec o sup hap hcl
  rcases h with h | h | h
  · exact .inl ((he.peerWants w).mp h).1
  · exact .inr (.inl ((he.bcstWants w).mp h))
  · exact .inr (.inr (he.cancels w h))

end

end MessageQueue

/-! ## The server and one want of the client -/

/-- What the client is heard to want of one want after a message. -/
def Message.heard (m : Message) (w : Want) (view : Bool) : Bool :=
  match m.flag w with
  | none => view
  | some cancel => !cancel

namespace EngineSys

open Engine

/-- The section belongs to a message of the peer. -/
def FromPeer (p : PeerID) : Action → Prop
  | .indexMessage q _ _ _ => q = p
  | _ => False

instance (p : PeerID) : (a : Action) → Decidable (FromPeer p a)
  | .indexMessage q .. => inferInstanceAs (Decidable (q = p))
  | .store _ | .ledgerMessage _ | .creditReceived _ | .scan .. | .cleanUp .. | .messageSent ..
  | .peerConnected _ | .peerDisconnected .. => .isFalse id

/-- The section does not take the want out of the peer's ledger: it is no message with an
answer, and no disconnect. -/
def KeepsWant (s : EngineSys) (p : PeerID) (w : Want) : Action → Prop
  | .messageSent q m _ _ => q = p → ¬ s.e.AnsweredBy p m w
  | .peerDisconnected q _ => q ≠ p
  | _ => True

/-- A message of the peer that cancels the want is between its two sections. -/
def Cancelling (s : EngineSys) (p : PeerID) (w : Want) : Prop :=
  ∃ r ∈ s.received, r.peer = p ∧ w ∈ r.cancels.map (·.want)

/-- The engine and what the client has been heard to want.  Its messages are entered one at
a time.  The other direction is kept only as long as no want is lost. -/
structure Agrees (p : PeerID) (w : Want) (kept : Prop) (s : EngineSys) (view : Bool) : Prop where
  one : s.received.Pairwise fun r r' => ¬ (r.peer = p ∧ r'.peer = p)
  plain : ∀ r ∈ s.received, r.peer = p → r.full = false
  asking : s.HalfRecorded p w → view = true
  cancelling : s.Cancelling p w → view = false
  sound : s.e.Wants p w → view = true ∨ s.Cancelling p w
  complete : kept → view = true → s.e.Wants p w ∨ s.HalfRecorded p w

section

variable {p : PeerID} {w : Want} {kept : Prop} {s : EngineSys} {view : Bool}

/-- The messages of the peer among those in progress. -/
def ofPeer (p : PeerID) (l : List Received) : List Received := l.filter fun r => r.peer = p

/-- `Agrees` is about the client's own messages in progress. -/
theorem agrees_iff : Agrees p w kept s view ↔
    (ofPeer p s.received).Pairwise (fun _ _ => False) ∧
    (∀ r ∈ ofPeer p s.received, r.full = false) ∧
    ((∃ r ∈ ofPeer p s.received, w ∈ r.wants.map (·.want)) → view = true) ∧
    ((∃ r ∈ ofPeer p s.received, w ∈ r.cancels.map (·.want)) → view = false) ∧
    (s.e.Wants p w → view = true ∨ ∃ r ∈ ofPeer p s.received, w ∈ r.cancels.map (·.want)) ∧
    (kept → view = true →
      s.e.Wants p w ∨ ∃ r ∈ ofPeer p s.received, w ∈ r.wants.map (·.want)) := by
  have hone : (ofPeer p s.received).Pairwise (fun _ _ => False) ↔
      s.received.Pairwise fun r r' => ¬ (r.peer = p ∧ r'.peer = p) := by
    simp [ofPeer, List.pairwise_filter]
  have hall : (∀ r ∈ ofPeer p s.received, r.full = false) ↔
      ∀ r ∈ s.received, r.peer = p → r.full = false := by
    simp [ofPeer]
  have hex : ∀ P : Received → Prop,
      (∃ r ∈ ofPeer p s.received, P r) ↔ ∃ r ∈ s.received, r.peer = p ∧ P r := by
    simp [ofPeer, and_assoc]
  rw [hone, hall, hex, hex]
  constructor
  · intro h
    exact ⟨h.one, h.plain, h.asking, h.cancelling, h.sound, h.complete⟩
  · rintro ⟨hone, hplain, hasking, hcancelling, hsound, hcomplete⟩
    exact ⟨hone, hplain, hasking, hcancelling, hsound, hcomplete⟩

/-- A section that leaves the client's messages in progress and its ledger. -/
theorem Agrees.of_same (h : Agrees p w kept s view) {s' : EngineSys}
    (hreceived : ofPeer p s'.received = ofPeer p s.received)
    (hwants : s'.e.Wants p w ↔ s.e.Wants p w) : Agrees p w kept s' view := by
  rw [agrees_iff, hreceived, hwants]
  exact agrees_iff.mp h

theorem Agrees.of_lost (h : Agrees p w kept s view) {e' : Engine}
    (hwants : e'.Wants p w → s.e.Wants p w) (hkept : kept → s.e.Wants p w → e'.Wants p w) :
    Agrees p w kept { s with e := e' } view :=
  ⟨h.one, h.plain, h.asking, h.cancelling, fun hw => h.sound (hwants hw),
    fun hk hv => (h.complete hk hv).imp_left (hkept hk)⟩

theorem ofPeer_idle {l : List Received} (h : ∀ r ∈ l, r.peer ≠ p) : ofPeer p l = [] :=
  List.filter_eq_nil_iff.mpr fun r hr => by simpa using h r hr

/-- A message of the client is read when none is in progress. -/
theorem Agrees.begins (h : Agrees p w kept s view) {m : Message} {o : RangeOrder} {sch : Schedule}
    (hidle : ∀ r ∈ s.received, r.peer ≠ p) (hfull : m.full = false) (hsch : sch.refused = none) :
    Agrees p w kept (s.step (.indexMessage p m o sch)) (m.heard w view) := by
  obtain ⟨r, hr⟩ := readMessage_complete s.e p m o hsch
  have hlast : ofPeer p (s.received ++ [r]) = [r] := by
    have hnone := ofPeer_idle hidle
    rw [ofPeer] at hnone ⊢
    rw [List.filter_append, hnone]
    simp [(readMessage_spec hr).1]
  rw [agrees_iff, ofPeer_idle hidle] at h
  rw [step, hr, agrees_iff]
  dsimp only
  rw [hlast]
  simp only [List.mem_singleton, exists_eq_left, forall_eq, List.pairwise_singleton, true_and,
    mem_wants_iff hr, mem_cancels_iff hr, full_readMessage hr, hfull]
  simp only [List.not_mem_nil, false_and, exists_false, or_false] at h
  obtain ⟨-, -, -, -, hsound, hcomplete⟩ := h
  rw [Message.heard]
  -- what the message says of the want, or what was heard before if it says nothing
  cases m.flag w with
  | none =>
      exact ⟨by simp, by simp, fun hw => .inl (hsound hw), fun hk hv => .inl (hcomplete hk hv)⟩
  | some cancel => cases cancel <;> simp

theorem ofPeer_alone {a b : List Received} {r : Received} (hp : r.peer = p)
    (h : (ofPeer p (a ++ r :: b)).Pairwise fun _ _ => False) :
    ofPeer p (a ++ r :: b) = [r] ∧ ofPeer p (a ++ b) = [] := by
  have hsplit : ofPeer p (a ++ r :: b) = ofPeer p a ++ r :: ofPeer p b := by simp [ofPeer, hp]
  rw [hsplit, List.pairwise_append, List.pairwise_cons] at h
  have ha : ofPeer p a = [] :=
    List.eq_nil_iff_forall_not_mem.mpr fun x hx => h.2.2 x hx r List.mem_cons_self
  have hb : ofPeer p b = [] := List.eq_nil_iff_forall_not_mem.mpr fun x hx => h.2.1.1 x hx
  refine ⟨by rw [hsplit, ha, hb]; rfl, ?_⟩
  rw [ofPeer, List.filter_append]
  exact List.append_eq_nil_iff.mpr ⟨ha, hb⟩

/-- The second section of a message, the client's or another peer's. -/
theorem Agrees.ends (h : Agrees p w kept s view) {i : Nat} {r : Received}
    (hr : s.received[i]? = some r) :
    Agrees p w kept { s with e := (s.e.ledgerMessage r).1, received := s.received.eraseIdx i }
      view := by
  obtain ⟨a, b, hl, herase⟩ : ∃ a b, s.received = a ++ r :: b ∧
      s.received.eraseIdx i = a ++ b := by
    obtain ⟨hi, rfl⟩ := List.getElem?_eq_some_iff.mp hr
    refine ⟨_, _, ?_, List.eraseIdx_eq_take_drop_succ _ _⟩
    rw [← List.drop_eq_getElem_cons hi, List.take_append_drop]
  rw [herase]
  by_cases hp : r.peer = p
  · rw [agrees_iff, hl] at h
    obtain ⟨hone, hnone⟩ := ofPeer_alone hp h.1
    rw [agrees_iff]
    dsimp only
    rw [hnone, wants_ledgerMessage]
    simp only [hone, List.mem_singleton, exists_eq_left, forall_eq] at h
    obtain ⟨-, hfull, hasking, hcancelling, hsound, hcomplete⟩ := h
    simp only [List.not_mem_nil, false_and, exists_false, or_false, hfull, hp]
    -- what the message asked for is in the ledger now, and what it cancelled is not
    grind
  · refine h.of_same ?_ ?_
    · dsimp only
      rw [hl]
      simp [ofPeer, hp]
    · rw [wants_ledgerMessage]
      simp [Ne.symm hp]

/-- Every section that is not the beginning of a message of the client. -/
theorem Agrees.serve (h : Agrees p w kept s view) {a : Action} (ha : ¬ FromPeer p a)
    (hkeeps : kept → s.KeepsWant p w a) : Agrees p w kept (s.step a) view := by
  cases a with
  | store source => exact h.of_same rfl Iff.rfl
  | indexMessage q m o sch =>
      rw [step]
      split
      · exact h
      · rename_i r hr
        have hp : r.peer ≠ p := fun hp => ha ((readMessage_spec hr).1.symm.trans hp)
        exact h.of_same (by simp [ofPeer, hp]) Iff.rfl
  | ledgerMessage i =>
      rw [step]
      split
      · exact h
      · rename_i r hr
        exact h.ends hr
  | creditReceived q => exact h.of_same rfl wants_findOrCreate
  | scan blks o =>
      rw [step]
      split
      · exact h
      · exact h.of_same rfl Iff.rfl
  | cleanUp i o =>
      rw [step]
      split
      · exact h
      · exact h.of_same rfl Iff.rfl
  | messageSent q m ob op =>
      refine h.of_lost (fun hw => (wants_messageSent.mp hw).1) fun hk hw => ?_
      refine wants_messageSent.mpr ⟨hw, ?_⟩
      rintro ⟨rfl, hans⟩
      exact hkeeps hk rfl hans
  | peerConnected q => exact h.of_same rfl wants_peerConnected
  | peerDisconnected q o =>
      refine h.of_lost (fun hw => (wants_peerDisconnected.mp hw).2) fun hk hw => ?_
      exact wants_peerDisconnected.mpr ⟨Ne.symm (hkeeps hk), hw⟩

theorem agrees_start (bs : AuthedBlockstore) (maxReplaceSize : Nat) (send : Bool) :
    Agrees p w kept (start bs maxReplaceSize send) false := by
  have hno : ¬ (start bs maxReplaceSize send).e.Wants p w := by
    rintro ⟨l, hl, -⟩
    cases hl
  exact agrees_iff.mpr ⟨.nil, by simp [ofPeer, start], by simp [ofPeer, start], fun _ => rfl,
    fun hw => absurd hw hno, fun _ hv => by cases hv⟩

end

end EngineSys

/-! ## The two together -/

/-- What lies between the two: how frames are read, the protocol of the stream, and who the
client is. -/
structure Wire (E : Type) where
  reader : MsgReader
  lib : CidLib
  cast : Bytes → Except E Cid
  proto : Protocol
  client : PeerID

/-- A client's queue, the bytes that have been sent and not read, and the server's engine. -/
structure Exchange where
  mq : MessageQueue
  stream : Bytes
  server : EngineSys

namespace Exchange

open MessageQueue

inductive Act where
  | queue (a : Add)
  | rebroadcast (ob op : RangeOrder)
  /-- `sendMessage`, with no call between the two locked sections of the extraction. -/
  | send (o : Orders) (wo : Message.WireOrders) (pool : Nat → Bytes)
  /-- The server takes a message from the stream and enters it in its index. -/
  | read (o : RangeOrder) (sch : Schedule)
  /-- Anything else the server's engine does. -/
  | serve (a : EngineSys.Action)

section

variable {E : Type} (x : Wire E)

def step (s : Exchange) : Act → Exchange
  | .queue a => { s with mq := s.mq.add a }
  | .rebroadcast ob op => { s with mq := s.mq.transferRebroadcastWants ob op }
  | .send o wo pool =>
      let r := s.mq.extract o x.proto.supportsHave
      if r.2.empty then { s with mq := r.1 }
      else
        match msgToStream x.lib x.proto r.2 wo pool with
        | .ok b => { s with mq := r.1, stream := s.stream ++ b }
        | .error _ => { s with mq := r.1 }
  | .read o sch =>
      if s.stream = [] ∨ ∃ r ∈ s.server.received, r.peer = x.client then s
      else
        match fromMsgReader x.reader x.lib x.cast s.stream with
        | .ok (m, rest) =>
            { s with stream := rest, server := s.server.step (.indexMessage x.client m o sch) }
        -- the stream is reset
        | .error _ => { s with stream := [] }
  | .serve a => if EngineSys.FromPeer x.client a then s else { s with server := s.server.step a }

/-- Two parties that have not talked. -/
def start (maxMsgSize : Nat) (bs : AuthedBlockstore) (maxReplaceSize : Nat) (send : Bool) :
    Exchange :=
  ⟨.new maxMsgSize, [], .start bs maxReplaceSize send⟩

/-- The want comes through: it has a CID that `cid.Cast` takes, and an auth string in lower-case
hexadecimal of even length. -/
def Sound (w : Want) : Prop :=
  w.defined = true ∧ LowerHex w.auth ∧ x.cast w.cid.str = .ok w.cid

/-- What is asked of a run. -/
def Fits (max : Nat) (s : Exchange) : Act → Prop
  | .queue a => ∀ w ∈ a.wants, Sound x w
  | .send o wo pool =>
      (∀ n, (pool n).length = n) ∧
        ∃ pbm, formatOf x.lib x.proto (s.mq.extract o x.proto.supportsHave).2 wo = some pbm ∧
          pbm.size ≤ max
  | .read _ sch => sch.refused = none
  | _ => True

/-- The server does not answer the want, and does not lose its peer. -/
def Unanswered (w : Want) (s : Exchange) : Act → Prop
  | .serve a => s.server.KeepsWant x.client w a
  | _ => True

/-- The calls of the queue among the acts, as `Link` has them. -/
def calls : Act → List Call
  | .queue (.addWants wantBlocks wantHaves) => [.addWants wantBlocks wantHaves]
  | .queue (.addBroadcastWantHaves wantHaves) => [.addBroadcastWantHaves wantHaves]
  | .queue (.addCancels ks) => [.addCancels ks]
  | .rebroadcast ob op => [.rebroadcast ob op]
  | .send o _ _ => [.extract o x.proto.supportsHave]
  | .read .. | .serve _ => []

/-- Everything that was sent has been read and entered. -/
def Settled (s : Exchange) : Prop :=
  s.stream = [] ∧ ∀ r ∈ s.server.received, r.peer ≠ x.client

end

section

variable {E : Type} {x : Wire E} {max : Nat} {w : Want} {kept : Prop} {s : Exchange} {l : Link}

/-- The messages that are on the stream, and what the server has heard before them. -/
structure UnderWay (x : Wire E) (max : Nat) (w : Want) (kept : Prop) (s : Exchange) (l : Link)
    (ms : List Message) (frames : List Bytes) (view : Bool) : Prop where
  stream : s.stream = frames.flatten
  sent : List.Forall₂ (SentAs x.lib x.proto max) ms frames
  sendable : ∀ m ∈ ms, Sendable x.lib x.cast m ∧ m.full = false
  remote : l.remote w = ms.foldl (fun view m => m.heard w view) view
  agrees : s.server.Agrees x.client w kept view

/-- The two parties and the link that stands for them, in regard to one want. -/
structure Rel (x : Wire E) (max : Nat) (w : Want) (kept : Prop) (s : Exchange) (l : Link) :
    Prop where
  mq : l.mq = s.mq
  steady : s.mq.Steady
  sound : ∀ k, s.mq.Tracked k → Sound x k
  bare : s.mq.msg.Bare
  underWay : ∃ ms frames view, UnderWay x max w kept s l ms frames view

/-- A call of the queue that sends nothing. -/
theorem Rel.of_queue (h : Rel x max w kept s l) {mq : MessageQueue} (hsteady : mq.Steady)
    (hmsg : mq.msg = s.mq.msg) (hsound : ∀ k, mq.Tracked k → Sound x k) :
    Rel x max w kept { s with mq := mq } { l with mq := mq } := by
  obtain ⟨ms, frames, view, hu⟩ := h.underWay
  refine ⟨rfl, hsteady, hsound, ?_, ms, frames, view, hu.stream, hu.sent, hu.sendable, hu.remote,
    hu.agrees⟩
  rw [hmsg]
  exact h.bare

theorem Rel.queue (h : Rel x max w kept s l) (a : Add) (hfits : ∀ k ∈ a.wants, Sound x k) :
    Rel x max w kept { s with mq := s.mq.add a } { l with mq := s.mq.add a } := by
  refine h.of_queue (steady_add h.steady a) (msg_add s.mq a) fun k hk => ?_
  exact (tracked_add hk).elim (hfits k) (h.sound k)

theorem Rel.rebroadcast (h : Rel x max w kept s l) (ob op : RangeOrder) :
    Rel x max w kept { s with mq := s.mq.transferRebroadcastWants ob op }
      { l with mq := s.mq.transferRebroadcastWants ob op } := by
  refine h.of_queue (steady_step s.mq (.rebroadcast ob op) h.steady)
    (msg_transferRebroadcastWants s.mq ob op) fun k hk => ?_
  exact h.sound k (tracked_transferRebroadcastWants hk)

theorem heard_of_empty {m : Message} (h : m.empty = true) (view : Bool) :
    m.heard w view = view := by
  have hflag : m.flag w = none := by
    rw [Message.empty, Bool.and_eq_true, Bool.and_eq_true, beq_iff_eq, beq_iff_eq] at h
    have hno := GoMap.len_eq_zero.mp h.1.2 w
    rw [Message.flag, AList.lookup_eq_none.mpr hno]
    rfl
  rw [Message.heard, hflag]

/-- `sendMessage`: the message goes onto the stream, and the link delivers it at once. -/
theorem Rel.send (h : Rel x max w kept s l) {o : Orders} {wo : Message.WireOrders}
    {pool : Nat → Bytes} (hmax : max + 8 < 9223372036854775808)
    (hfits : Fits x max s (.send o wo pool)) :
    Rel x max w kept (s.step x (.send o wo pool)) (l.step (.extract o x.proto.supportsHave)) := by
  obtain ⟨hpool, pbm, hformat, hsize⟩ := hfits
  obtain ⟨ms, frames, view, hu⟩ := h.underWay
  have hsteady : (s.mq.extract o x.proto.supportsHave).1.Steady :=
    steady_step s.mq (.extract o x.proto.supportsHave []) h.steady
  have hmsg : (s.mq.extract o x.proto.supportsHave).1.msg.Bare := Message.bare_reset _
  have hsound : ∀ k, (s.mq.extract o x.proto.supportsHave).1.Tracked k → Sound x k := fun k hk =>
    h.sound k (tracked_extract h.steady.apart h.steady.clear hk)
  have hbare := bare_extract h.bare o x.proto.supportsHave
  have hsend : Sendable x.lib x.cast (s.mq.extract o x.proto.supportsHave).2 :=
    hbare.sendable fun k hk => h.sound k (tracked_of_mem_extract h.steady.clear hk)
  rw [Link.step, h.mq, step]
  generalize s.mq.extract o x.proto.supportsHave = r at *
  have hdeliver : deliver l.remote r.2 w = r.2.heard w (l.remote w) := rfl
  split
  · rename_i hempty
    refine ⟨rfl, hsteady, hsound, hmsg, ms, frames, view, hu.stream, hu.sent, hu.sendable, ?_,
      hu.agrees⟩
    exact hdeliver.trans ((heard_of_empty hempty _).trans hu.remote)
  · obtain ⟨b, hwrite⟩ : ∃ b, msgToStream x.lib x.proto r.2 wo pool = .ok b :=
      ⟨_, (msgToStream_eq hformat).trans (PB.Message.write_eq (by omega) hpool)⟩
    rw [hwrite]
    refine ⟨rfl, hsteady, hsound, hmsg, ms ++ [r.2], frames ++ [b], view, ?_, ?_, ?_, ?_, hu.agrees⟩
    · rw [List.flatten_append, List.flatten_singleton, ← hu.stream]
    · exact List.rel_append hu.sent (.cons ⟨wo, pool, pbm, hformat, hsize, hpool, hwrite⟩ .nil)
    · intro m hm
      rcases List.mem_append.mp hm with hm | hm
      · exact hu.sendable m hm
      · rw [List.mem_singleton.mp hm]
        exact ⟨hsend, hbare.full⟩
    · rw [List.foldl_append, ← hu.remote]
      exact hdeliver

/-- A message arrives with the wantlist it was sent with. -/
theorem wantlist_of_arrives {m m' : Message} (h : Arrives x.lib x.proto m m') :
    m'.full = m.full ∧ ∀ k, m'.flag k = m.flag k := by
  have hlookup : m'.full = m.full ∧ ∀ k, m'.wantlist.lookup k = m.wantlist.lookup k := by
    unfold Arrives at h
    split at h
    all_goals first | exact ⟨h.full, h.wantlist⟩ | exact h.elim
  exact ⟨hlookup.1, fun k => congrArg (Option.map Message.Entry.cancel) (hlookup.2 k)⟩

theorem Rel.read (h : Rel x max w kept s l) {o : RangeOrder} {sch : Schedule}
    (hreader : x.reader.Reads max) (hmax : max + 8 < 9223372036854775808)
    (hsch : sch.refused = none) : Rel x max w kept (s.step x (.read o sch)) l := by
  rw [step]
  split
  · exact h
  rename_i hready
  obtain ⟨hne, hidle⟩ := not_or.mp hready
  have hidle : ∀ r ∈ s.server.received, r.peer ≠ x.client := fun r hr hp => hidle ⟨r, hr, hp⟩
  obtain ⟨ms, frames, view, hu⟩ := h.underWay
  rw [hu.stream] at hne ⊢
  cases hu.sent with
  | nil => exact absurd rfl hne
  | @cons m b ms frames hb hsent =>
      obtain ⟨hm, hms⟩ := List.forall_mem_cons.mp hu.sendable
      obtain ⟨m', harrives, hread, -⟩ := hb.read hreader hmax hm.1
      obtain ⟨hfull, hflag⟩ := wantlist_of_arrives harrives
      have hheard : m'.heard w view = m.heard w view := by rw [Message.heard, hflag, Message.heard]
      rw [List.flatten_cons, hread]
      refine ⟨h.mq, h.steady, h.sound, h.bare, ms, frames, m'.heard w view, rfl, hsent, hms, ?_, ?_⟩
      · rw [hheard]
        exact hu.remote
      · exact hu.agrees.begins hidle (hfull.trans hm.2) hsch

theorem Rel.serve (h : Rel x max w kept s l) {a : EngineSys.Action}
    (hkeeps : kept → s.server.KeepsWant x.client w a) :
    Rel x max w kept (s.step x (.serve a)) l := by
  rw [step]
  split
  · exact h
  · rename_i ha
    obtain ⟨ms, frames, view, hu⟩ := h.underWay
    exact ⟨h.mq, h.steady, h.sound, h.bare, ms, frames, view, hu.stream, hu.sent, hu.sendable,
      hu.remote, hu.agrees.serve ha hkeeps⟩

theorem rel_step (h : Rel x max w kept s l) (hreader : x.reader.Reads max)
    (hmax : max + 8 < 9223372036854775808) (a : Act) (hfits : Fits x max s a)
    (hkeeps : kept → Unanswered x w s a) :
    Rel x max w kept (s.step x a) (run Link.step l (calls x a)) := by
  cases a with
  | queue a =>
      have hcall : run Link.step l (calls x (.queue a)) = { l with mq := l.mq.add a } := by
        cases a <;> rfl
      rw [hcall, h.mq]
      exact h.queue a hfits
  | rebroadcast ob op =>
      show Rel x max w kept _ ⟨l.mq.transferRebroadcastWants ob op, l.remote⟩
      rw [h.mq]
      exact h.rebroadcast ob op
  | send o wo pool => exact h.send hmax hfits
  | read o sch => exact h.read hreader hmax hfits
  | serve a => exact h.serve hkeeps

theorem rel_start (maxMsgSize : Nat) (bs : AuthedBlockstore) (maxReplaceSize : Nat) (send : Bool) :
    Rel x max w kept (start maxMsgSize bs maxReplaceSize send) (.start maxMsgSize) := by
  refine ⟨rfl, steady_reached maxMsgSize [], ?_, ⟨rfl, rfl, rfl⟩, [], [], false, rfl, .nil, ?_, rfl,
    EngineSys.agrees_start bs maxReplaceSize send⟩
  · rintro k ((hk | hk) | (hk | hk) | hk) <;> exact absurd hk (AList.notMem_empty k)
  · intro m hm
    cases hm

/-- A run of the two parties is a run of the link on the calls of the queue. -/
theorem rel_run (hreader : x.reader.Reads max) (hmax : max + 8 < 9223372036854775808)
    (acts : List Act) (h : Rel x max w kept s l) (hfits : Meets (step x) (Fits x max) s acts)
    (hkeeps : kept → Meets (step x) (Unanswered x w) s acts) :
    Rel x max w kept (run (step x) s acts) (run Link.step l (acts.flatMap (calls x))) := by
  induction acts generalizing s l with
  | nil => exact h
  | cons a acts ih =>
      have hnext := rel_step h hreader hmax a hfits.1 fun hk => (hkeeps hk).1
      rw [List.flatMap_cons, run_append]
      exact ih hnext hfits.2 fun hk => (hkeeps hk).2

/-- When nothing is on the stream, no message is. -/
theorem UnderWay.nil {ms : List Message} {frames : List Bytes} {view : Bool}
    (h : UnderWay x max w kept s l ms frames view) (hstream : s.stream = [])
    (hmax : max + 8 < 9223372036854775808) : ms = [] := by
  cases h.sent with
  | nil => rfl
  | @cons m b ms frames hb hsent =>
      obtain ⟨wo, pool, pbm, hformat, hsize, hpool, hb⟩ := hb
      rw [msgToStream_eq hformat, PB.Message.write_eq (by omega) hpool] at hb
      have hnil := h.stream.symm.trans hstream
      rw [List.flatten_cons, ← Except.ok.inj hb] at hnil
      simp [Varint.encode_ne_nil] at hnil

/-- At rest the ledger and the link agree about the want. -/
theorem Rel.settled (h : Rel x max w kept s l) (hmax : max + 8 < 9223372036854775808)
    (hs : s.Settled x) :
    (s.server.e.Wants x.client w → l.remote w = true) ∧
      (kept → l.remote w = true → s.server.e.Wants x.client w) := by
  obtain ⟨ms, frames, view, hu⟩ := h.underWay
  obtain rfl := hu.nil hs.1 hmax
  rw [hu.remote]
  refine ⟨fun hw => (hu.agrees.sound hw).resolve_right ?_,
    fun hk hv => (hu.agrees.complete hk hv).resolve_right ?_⟩
  · rintro ⟨r, hr, hp, -⟩
    exact hs.2 r hr hp
  · rintro ⟨r, hr, hp, -⟩
    exact hs.2 r hr hp

end

section

variable {E : Type}

/-- **The ledger is the link's.**  Take any run of the queue, the stream and the engine, with
the engine's work for everybody else in between.  The queue is as in the run of `Link` with the
same calls; and when everything that was sent has been entered, the server's ledger has only
wants the link says the remote holds, and has each of them that it did not answer. -/
theorem ledger_refines (x : Wire E) (max : Nat) (hreader : x.reader.Reads max)
    (hmax : max + 8 < 9223372036854775808) (maxMsgSize : Nat) (bs : AuthedBlockstore)
    (maxReplaceSize : Nat) (send : Bool) (acts : List Act)
    (hfits : Meets (step x) (Fits x max) (start maxMsgSize bs maxReplaceSize send) acts) :
    let s := run (step x) (start maxMsgSize bs maxReplaceSize send) acts
    let l := run Link.step (.start maxMsgSize) (acts.flatMap (calls x))
    s.mq = l.mq ∧
      (s.Settled x → ∀ w,
        (s.server.e.Wants x.client w → l.remote w = true) ∧
          (Meets (step x) (Unanswered x w) (start maxMsgSize bs maxReplaceSize send) acts →
            l.remote w = true → s.server.e.Wants x.client w)) := by
  intro s l
  have hrel : ∀ w, Rel x max w
      (Meets (step x) (Unanswered x w) (start maxMsgSize bs maxReplaceSize send) acts) s l :=
    fun w => rel_run hreader hmax acts (rel_start maxMsgSize bs maxReplaceSize send) hfits id
  exact ⟨(hrel .undefined).mq.symm, fun hs w => (hrel w).settled hmax hs⟩

/-- A reader of frames and a library of CIDs that take everything. -/
def plainWire : Wire Unit := ⟨plainReader, Message.plainLib, PB.castAny, .bitswap, ⟨[7]⟩⟩

def oneWant : Want := ⟨⟨[1, 85, 7]⟩, [97, 98]⟩

/-- A want that is sent, read and entered. -/
def oneWantRun : List Act :=
  [.queue (.addWants [oneWant] []),
    .send ⟨.stored, .stored, .stored⟩ .stored (fun n => List.replicate n 0),
    .read .stored (.complete .stored), .serve (.ledgerMessage 0)]

def emptyStore : AuthedBlockstore := ⟨.ofContent ∅, fun _ _ _ _ => true⟩

theorem fits_oneWantRun : Meets (step plainWire) (Fits plainWire 4194304)
    (start 1000 emptyStore 1024 true) oneWantRun := by
  refine ⟨fun k hk => ?_, ⟨fun n => List.length_replicate, ?_⟩, rfl, trivial, trivial⟩
  · rw [List.mem_singleton.mp hk]
    exact ⟨by decide, by decide, rfl⟩
  · exact ⟨_, rfl, by decide⟩

theorem settled_oneWantRun :
    (run (step plainWire) (start 1000 emptyStore 1024 true) oneWantRun).Settled plainWire := by
  have hnone :
      (run (step plainWire) (start 1000 emptyStore 1024 true) oneWantRun).server.received = [] :=
    List.isEmpty_iff.mp (by decide +kernel)
  refine ⟨List.isEmpty_iff.mp (by decide +kernel), ?_⟩
  rw [hnone]
  intro r hr
  cases hr

theorem wants_oneWantRun :
    (run (step plainWire) (start 1000 emptyStore 1024 true) oneWantRun).server.e.Wants
      plainWire.client oneWant := by decide +kernel

theorem ledger_refines_one_want :
    let s := run (step plainWire) (start 1000 emptyStore 1024 true) oneWantRun
    s.Settled plainWire ∧ s.server.e.Wants plainWire.client oneWant ∧
      (run Link.step (.start 1000) (oneWantRun.flatMap (calls plainWire))).remote oneWant =
        true := by
  have hmain := ledger_refines plainWire 4194304 (reads_plainReader (by decide)) (by decide) 1000
    emptyStore 1024 true oneWantRun fits_oneWantRun
  exact ⟨settled_oneWantRun, wants_oneWantRun,
    (hmain.2 settled_oneWantRun oneWant).1 wants_oneWantRun⟩

/-- **Nothing is left behind.**  If the queue gives up no last record of a want the remote
holds, then at rest every want of the client in the server's ledger is recorded by the queue,
and recorded as sent when the queue has no work pending. -/
theorem ledger_accounted (x : Wire E) (max : Nat) (hreader : x.reader.Reads max)
    (hmax : max + 8 < 9223372036854775808) (maxMsgSize : Nat) (bs : AuthedBlockstore)
    (maxReplaceSize : Nat) (send : Bool) (acts : List Act)
    (hfits : Meets (step x) (Fits x max) (start maxMsgSize bs maxReplaceSize send) acts)
    (hkeeps : Meets Link.step Link.KeepsRecord (.start maxMsgSize) (acts.flatMap (calls x))) :
    let s := run (step x) (start maxMsgSize bs maxReplaceSize send) acts
    s.Settled x → ∀ w, s.server.e.Wants x.client w → s.mq.Tracked w ∧
      (s.mq.pendingWorkCount = 0 → w ∈ s.mq.peerWants.sent ∨ w ∈ s.mq.bcstWants.sent) := by
  intro s hs w hw
  have hrel : Rel x max w False s _ :=
    rel_run hreader hmax acts (rel_start maxMsgSize bs maxReplaceSize send) hfits False.elim
  have hremote := (hrel.settled hmax hs).1 hw
  have halways := always_of_meets (fun _ h => h) (fun _ a h hok => Link.inv_step a h hok)
    (acts.flatMap (calls x)) (Link.inv_start maxMsgSize) hkeeps
  have hleak := halways.last.noLeak
  rw [← hrel.mq]
  exact ⟨hleak.1 w hremote, fun hz => hleak.2 hz w hremote⟩

theorem ledger_accounted_one_want :
    let s := run (step plainWire) (start 1000 emptyStore 1024 true) oneWantRun
    s.Settled plainWire ∧ s.server.e.Wants plainWire.client oneWant ∧
      (oneWant ∈ s.mq.peerWants.sent ∨ oneWant ∈ s.mq.bcstWants.sent) := by
  have hz :
      (run (step plainWire) (start 1000 emptyStore 1024 true) oneWantRun).mq.pendingWorkCount = 0 :=
    by decide +kernel
  have hkeeps : Meets Link.step Link.KeepsRecord (.start 1000)
      (oneWantRun.flatMap (calls plainWire)) := by
    show Meets Link.step Link.KeepsRecord (.start 1000)
      [.addWants [oneWant] [], .extract ⟨.stored, .stored, .stored⟩ true]
    exact ⟨trivial, trivial, trivial⟩
  have hmain := ledger_accounted plainWire 4194304 (reads_plainReader (by decide)) (by decide) 1000
    emptyStore 1024 true oneWantRun fits_oneWantRun hkeeps settled_oneWantRun oneWant
    wants_oneWantRun
  exact ⟨settled_oneWantRun, wants_oneWantRun, hmain.2 hz⟩

end

end Exchange

end BitswapAuth
