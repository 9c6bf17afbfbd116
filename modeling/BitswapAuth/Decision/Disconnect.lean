/-
# `BitswapAuth.Decision.Disconnect` — what a peer that disconnects leaves behind

`PeerDisconnected` drops the peer's ledger, and takes the peer out of the index for every want
the ledger has.  Two calls before it may have taken wants out of the ledger alone.

    call              ledger                          index
    MessageReceived   the message's wants are added   so it is here
                      its cancels are taken out       so they are here
                      a full wantlist replaces it     the replaced wants stay
    MessageSent       what was answered is taken out  what was answered stays
    ReceiveFrom       stays as it is                  what no ledger has is taken out

A want that is in the index alone is found neither by a cancel of the ledger nor when the peer
disconnects.  The index is then left with a peer that is gone, until a block for the want
arrives, if one ever does.  `disconnect_forgets_iff` says that this is all that can go wrong: in
a run every peer can be forgotten at any time just when no call of the two kinds leaves a want
behind.
-/
import BitswapAuth.Decision.Arrival

namespace BitswapAuth

open Lib

namespace Message

/-- The wants of the entries that have the cancel flag one way. -/
theorem mem_map_want_iff_flag {m : Message} {b : Bool} {es : List Entry}
    (hes : ∀ et, et ∈ es ↔ m.wantlist.lookup et.want = some et ∧ et.cancel = b) {w : Want} :
    w ∈ es.map (·.want) ↔ m.flag w = some b := by
  rw [List.mem_map, flag, Option.map_eq_some_iff]
  constructor
  · rintro ⟨et, het, rfl⟩
    exact ⟨et, (hes et).mp het⟩
  · rintro ⟨et, het, hc⟩
    obtain rfl := m.keyed w et het
    exact ⟨et, (hes et).mpr ⟨het, hc⟩, rfl⟩

end Message

namespace Engine

variable {e : Engine} {p q : PeerID} {w : Want}

/-! ## Index entries that no ledger backs -/

/-- The index has a peer only for wants of its ledger. -/
def Backed (e : Engine) : Prop := ∀ p w, e.peerLedger.Has p w → e.Wants p w

/-- The peer is forgotten when it disconnects: no want lists it, it has no ledger, and of the
other peers everything is as it was. -/
structure Forgets (e : Engine) (p : PeerID) (o : RangeOrder) : Prop where
  index : ∀ w, ¬ (e.peerDisconnected p o).peerLedger.Has p w
  ledger : p ∉ (e.peerDisconnected p o).ledgerMap
  others : ∀ q, q ≠ p → (e.peerDisconnected p o).ledgerMap.lookup q = e.ledgerMap.lookup q ∧
    ∀ w, (e.peerDisconnected p o).peerLedger.Has q w ↔ e.peerLedger.Has q w

/-- A peer is forgotten just if the index has it only for wants of its ledger. -/
theorem forgets_iff {o : RangeOrder} :
    e.Forgets p o ↔ ∀ w, e.peerLedger.Has p w → e.Wants p w := by
  constructor
  · intro h w hw
    by_contra hno
    exact h.index w (has_peerDisconnected.mpr ⟨hw, fun hp => hno hp.2⟩)
  · intro h
    refine ⟨fun w hw => ?_, ?_, fun q hq => ⟨?_, fun w => ?_⟩⟩
    · obtain ⟨hw, hno⟩ := has_peerDisconnected.mp hw
      exact hno ⟨rfl, h w hw⟩
    · exact fun hp => (AList.mem_erase.mp hp).1 rfl
    · exact AList.lookup_erase_ne hq
    · rw [has_peerDisconnected]
      exact and_iff_left fun hp => hq hp.1

theorem forall_forgets_iff : (∀ p o, e.Forgets p o) ↔ e.Backed :=
  ⟨fun h p => forgets_iff.mp (h p .stored), fun h p _ => forgets_iff.mpr (h p)⟩

/-- The call leaves no want of a ledger behind in the index: a full wantlist names every want of
the ledger that it replaces, and a message that was sent answers no want of the ledger. -/
def LeavesNone (e : Engine) : Call → Prop
  | .messageReceived p m o s =>
      m.full = true → e.readMessage p m o s ≠ none → ∀ w, e.Wants p w → w ∈ m.wantlist
  | .messageSent p m _ _ => ∀ w, e.Wants p w → ¬ e.AnsweredBy p m w
  | _ => True

/-! ## The calls -/

/-- The wants and the cancels that are read from a message are those of its entries. -/
theorem mem_wants_iff {m : Message} {o : RangeOrder} {s : Schedule} {r : Received}
    (hr : e.readMessage p m o s = some r) :
    w ∈ r.wants.map (·.want) ↔ m.flag w = some false :=
  Message.mem_map_want_iff_flag (readMessage_spec hr).2.1

theorem mem_cancels_iff {m : Message} {o : RangeOrder} {s : Schedule} {r : Received}
    (hr : e.readMessage p m o s = some r) :
    w ∈ r.cancels.map (·.want) ↔ m.flag w = some true :=
  Message.mem_map_want_iff_flag (readMessage_spec hr).2.2.1

theorem full_readMessage {m : Message} {o : RangeOrder} {s : Schedule} {r : Received}
    (hr : e.readMessage p m o s = some r) : r.full = m.full := by
  unfold readMessage at hr
  dsimp only at hr
  split at hr
  · cases hr
  · cases hr
    rfl

theorem backed_messageReceived (h : e.Backed) {m : Message} {o : RangeOrder} {s : Schedule}
    (hok : e.LeavesNone (.messageReceived p m o s)) : (e.messageReceived p m o s).1.Backed := by
  rw [messageReceived]
  cases hr : e.readMessage p m o s with
  | none => exact h
  | some r =>
      intro q w hw
      have hix : (e.indexMessage r).peerLedger.Has q w := peerLedger_ledgerMessage ▸ hw
      obtain ⟨hin, hnc⟩ := has_indexMessage.mp hix
      by_cases hnew : q = r.peer ∧ w ∈ r.wants.map (·.want)
      · exact wants_ledgerMessage.mpr (.inl hnew)
      · have hold : e.Wants q w := h q w (hin.resolve_left hnew)
        refine wants_ledgerMessage.mpr (.inr ⟨hold, ?_⟩)
        rintro ⟨hq, hfull | hc⟩
        · -- the message names the want, neither as a want nor as a cancel
          have hp : q = p := hq.trans (readMessage_spec hr).1
          have hmem := hok (full_readMessage hr ▸ hfull) (by simp [hr]) w (hp ▸ hold)
          rcases Message.mem_wantlist_iff_flag.mp hmem with hw | hc
          · exact hnew ⟨hq, (mem_wants_iff hr).mpr hw⟩
          · exact hnc ⟨hq, (mem_cancels_iff hr).mpr hc⟩
        · exact hnc ⟨hq, hc⟩

/-- `ReceiveFrom` only takes entries out of the index. -/
theorem has_of_receiveFrom {sender : PeerID} {blks : List AuthBlock} {o : Nat → RangeOrder}
    {oc : RangeOrder} (h : (e.receiveFrom sender blks o oc).1.peerLedger.Has p w) :
    e.peerLedger.Has p w := by
  have hcredit : (e.credited sender).peerLedger = e.peerLedger := by
    rw [credited]
    split
    · rfl
    · exact peerLedger_findOrCreate
  have hclean : ∀ (e : Engine) (q : PeerID) (l : PeerLedger) (k : Want),
      (e.cleanWant q l k).Has p w → l.Has p w := by
    intro e q l k h
    rw [cleanWant] at h
    split at h
    · split at h
      · exact h
      · exact (PeerLedger.has_cancelWant.mp h).2
    · exact (PeerLedger.has_cancelWant.mp h).2
  rw [receiveFrom] at h
  split at h
  · exact h
  · rw [← hcredit]
    dsimp only at h
    split at h
    · exact h
    · refine foldl_reflect (P := fun l : PeerLedger => l.Has p w) (fun l m hl => ?_) _ h
      exact foldl_reflect (P := fun l : PeerLedger => l.Has p w) (hclean _ m.1) _ hl

theorem wants_receiveFrom {sender : PeerID} {blks : List AuthBlock} {o : Nat → RangeOrder}
    {oc : RangeOrder} : (e.receiveFrom sender blks o oc).1.Wants p w ↔ e.Wants p w := by
  cases blks with
  | nil => rfl
  | cons b bs =>
      rw [Wants, ledgerMap_receiveFrom (List.cons_ne_nil b bs)]
      exact wants_credited

theorem backed_call (h : e.Backed) (c : Call) (hok : e.LeavesNone c) : (e.call c).Backed := by
  cases c with
  | store source => exact h
  | messageReceived p m o s => exact backed_messageReceived h hok
  | receiveFrom sender blks o oc =>
      intro p w hw
      exact wants_receiveFrom.mpr (h p w (has_of_receiveFrom hw))
  | messageSent p m ob op =>
      intro q w hw
      have hold : e.Wants q w := h q w (peerLedger_messageSent ▸ hw)
      refine wants_messageSent.mpr ⟨hold, fun hp => ?_⟩
      exact hok w (hp.1 ▸ hold) hp.2
  | peerConnected p =>
      intro q w hw
      exact wants_peerConnected.mpr (h q w (peerLedger_peerConnected ▸ hw))
  | peerDisconnected p o =>
      intro q w hw
      obtain ⟨hw, hno⟩ := has_peerDisconnected.mp hw
      have hold := h q w hw
      exact wants_peerDisconnected.mpr ⟨fun hq => hno ⟨hq, hq ▸ hold⟩, hold⟩

/-- A want that a call takes out of a ledger and leaves in the index is there without a
ledger. -/
theorem not_backed_call (h : e.Indexed) (c : Call) (hno : ¬ e.LeavesNone c) :
    ¬ (e.call c).Backed := by
  intro hb
  cases c with
  | messageReceived p m o s =>
      simp only [LeavesNone, Classical.not_imp, not_forall] at hno
      obtain ⟨hfull, hread, w, hw, hmem⟩ := hno
      obtain ⟨r, hr⟩ := Option.ne_none_iff_exists'.mp hread
      have hpeer : r.peer = p := (readMessage_spec hr).1
      rw [Message.mem_wantlist_iff_flag, not_or, ← mem_wants_iff hr, ← mem_cancels_iff hr] at hmem
      have hcall : e.call (.messageReceived p m o s) =
          ((e.indexMessage r).ledgerMessage r).1 := by
        rw [call, messageReceived, hr]
      rw [hcall] at hb
      have hix : ((e.indexMessage r).ledgerMessage r).1.peerLedger.Has p w := by
        rw [peerLedger_ledgerMessage]
        exact has_indexMessage.mpr ⟨.inr (h p w hw), fun hc => hmem.2 hc.2⟩
      rcases wants_ledgerMessage.mp (hb p w hix) with hin | ⟨-, hkept⟩
      · exact hmem.1 hin.2
      · exact hkept ⟨hpeer.symm, .inl (full_readMessage hr ▸ hfull)⟩
  | messageSent p m ob op =>
      simp only [LeavesNone, not_forall, not_not] at hno
      obtain ⟨w, hw, hans⟩ := hno
      have hix : (e.messageSent p m ob op).peerLedger.Has p w :=
        by rw [peerLedger_messageSent]; exact h p w hw
      exact (wants_messageSent.mp (hb p w hix)).2 ⟨rfl, hans⟩
  | store | receiveFrom | peerConnected | peerDisconnected => exact hno trivial

/-- **Who disconnects is forgotten, exactly.**  Take any calls on an engine.  At every moment
every peer would be forgotten if it disconnected, just when no call has left a want of a ledger
behind in the index: no full wantlist has left out a want of the ledger, and no message was sent
that answers a want of the ledger. -/
theorem disconnect_forgets_iff (bs : AuthedBlockstore) (maxReplaceSize : Nat) (send : Bool)
    (calls : List Call) :
    let e := (newEngine bs maxReplaceSize).setSendDontHaves send
    Always call (fun e => ∀ p o, e.Forgets p o) e calls ↔ Meets call LeavesNone e calls := by
  intro e
  have hstep : ∀ (e : Engine) (c : Call), e.Indexed ∧ e.Backed → e.LeavesNone c →
      (e.call c).Indexed ∧ (e.call c).Backed :=
    fun e c h hok => ⟨indexed_call h.1 c, backed_call h.2 c hok⟩
  have hbreak : ∀ (e : Engine) (c : Call), e.Indexed ∧ e.Backed → ¬ e.LeavesNone c →
      ¬ ∀ p o, (e.call c).Forgets p o :=
    fun e c h hno hf => not_backed_call h.1 c hno (forall_forgets_iff.mp hf)
  refine always_iff_meets (fun e h => forall_forgets_iff.mpr h.2) hstep hbreak calls ⟨?_, ?_⟩
  · exact indexed_run (e := e) rfl []
  · intro p w hw
    simp [e, newEngine, setSendDontHaves, PeerLedger.Has, PeerLedger.new, GoMap.Linked] at hw

/-- A peer asks for a block, is sent the block and disconnects: the index still has it. -/
theorem listed_after_disconnect :
    let w : Want := ⟨⟨[1]⟩, [65]⟩
    let p : PeerID := ⟨[7]⟩
    let block : Block := ⟨⟨[1]⟩, [10, 20]⟩
    let e := run call ((newEngine ⟨.ofContent ∅, fun _ _ _ _ => true⟩ 1024).setSendDontHaves true)
      [.messageReceived p (askFor w .wantBlock) .stored (.complete .stored),
        .messageSent p ((Message.new false).addBlock block [65]) .stored .stored]
    p ∉ (e.peerDisconnected p .stored).ledgerMap ∧
      p ∈ (e.peerDisconnected p .stored).peerLedger.peers .stored w ∧
      ¬ e.Forgets p .stored := by
  intro w p block e
  have hlisted : p ∈ (e.peerDisconnected p .stored).peerLedger.peers .stored w := by
    decide
  refine ⟨by decide, hlisted, fun h => ?_⟩
  exact h.index w (PeerLedger.mem_peers.mp hlisted)

end Engine

end BitswapAuth
