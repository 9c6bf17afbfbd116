/-
# `BitswapAuth.Decision.Index` — the want index under interleaving

The engine keeps each peer's wants twice: in the peer's ledger, and in the
index from wants to peers that `ReceiveFrom` reads when a block arrives.  A
want that is in the ledger and not in the index is never served from then on.

The two are written in two critical sections.  Between them a want is
half-recorded: it is in the index, and the ledger does not say so yet.  Every
way of losing it is a removal of such an index entry, by a cancel on another
stream, by the clean-up of an arrived block, or by a disconnect
(`Undisturbed`); when none of these meets a half-recorded want, the index is
complete whenever no call is in progress (`index_complete`).
-/
import BitswapAuth.Decision.Serving
import BitswapAuth.Lib.Run

namespace BitswapAuth

open Lib

namespace Engine

/-! ## What the sections do to ledgers and index -/

/-- The peer's ledger has the want. -/
def Wants (e : Engine) (p : PeerID) (w : Want) : Prop :=
  ∃ l, e.ledgerMap.lookup p = some l ∧ w ∈ l.wantList

instance (e : Engine) (p : PeerID) (w : Want) : Decidable (e.Wants p w) :=
  decidable_of_iff ((e.ledgerMap.lookup p).any fun l => (l.wantListContains w).isSome) <| by
    rw [Option.any_eq_true]
    exact exists_congr fun l => and_congr_right fun _ => Wantlist.isSome_contains

theorem wants_setLedger {e : Engine} {p q : PeerID} {l : Ledger} {w : Want} :
    (e.setLedger p l).Wants q w ↔ if q = p then w ∈ l.wantList else e.Wants q w := by
  unfold Wants setLedger
  dsimp only
  rw [GoMap.lookup_insert_ite]
  split <;> simp

/-- A ledger that is created is empty. -/
theorem mem_findOrCreate {e : Engine} {p : PeerID} {w : Want} :
    w ∈ (e.findOrCreate p).2.wantList ↔ e.Wants p w := by
  rw [findOrCreate, Wants]
  split
  · rename_i l h; simp [h]
  · rename_i h; simp [h, Ledger.new]

theorem wants_findOrCreate {e : Engine} {p q : PeerID} {w : Want} :
    (e.findOrCreate p).1.Wants q w ↔ e.Wants q w := by
  rw [findOrCreate]
  split
  · rfl
  · rename_i h
    show (e.setLedger p (.new p)).Wants q w ↔ _
    rw [wants_setLedger]
    split
    · rename_i hq; subst hq; simp [Wants, h, Ledger.new]
    · rfl

theorem mem_foldl_cancelEntry {p : PeerID} {w : Want} : ∀ (cs : List Message.Entry)
    (s : Ledger × List QueueOp), w ∈ (cs.foldl (cancelEntry p) s).1.wantList ↔
      w ∈ s.1.wantList ∧ w ∉ cs.map (·.want)
  | [], s => by simp
  | c :: cs, s => by
      rw [List.foldl_cons, mem_foldl_cancelEntry cs]
      simp only [cancelEntry, Ledger.cancelWant, Wantlist.mem_remove, List.map_cons, List.mem_cons,
        not_or]
      tauto

theorem mem_foldl_wants {w : Want} : ∀ (ws : List Message.Entry) (l : Ledger),
    w ∈ (ws.foldl (fun l et => l.wants et.want et.priority et.wantType) l).wantList ↔
      w ∈ ws.map (·.want) ∨ w ∈ l.wantList
  | [], l => by simp
  | et :: ws, l => by
      rw [List.foldl_cons, mem_foldl_wants ws]
      simp only [Ledger.wants, Wantlist.mem_add, List.map_cons, List.mem_cons]
      tauto

theorem peerLedger_findOrCreate {e : Engine} {p : PeerID} :
    (e.findOrCreate p).1.peerLedger = e.peerLedger := by
  rw [findOrCreate]
  split <;> rfl

theorem peerLedger_ledgerMessage {e : Engine} {r : Received} :
    (e.ledgerMessage r).1.peerLedger = e.peerLedger := peerLedger_findOrCreate

/-- No want of a message is cancelled in it too: it has one entry for each want. -/
theorem split_readMessage {e : Engine} {p : PeerID} {m : Message} {o : RangeOrder} {s : Schedule}
    {r : Received} (h : e.readMessage p m o s = some r) :
    ∀ w ∈ r.wants.map (·.want), w ∉ r.cancels.map (·.want) := by
  obtain ⟨-, hwants, hcancels, -⟩ := readMessage_spec h
  intro w hw hc
  obtain ⟨et, het, rfl⟩ := List.mem_map.mp hw
  obtain ⟨et', het', heq⟩ := List.mem_map.mp hc
  obtain ⟨hl, hf⟩ := (hwants et).mp het
  obtain ⟨hl', ht⟩ := (hcancels et').mp het'
  rw [heq] at hl'
  obtain rfl := Option.some.inj (hl.symm.trans hl')
  exact absurd (hf.symm.trans ht) (by simp)

/-- The peer's ledger has the wants of the message, and of the old ones those that the message
neither cancels nor, with a full wantlist, replaces. -/
theorem wants_ledgerMessage {e : Engine} {r : Received} {q : PeerID} {w : Want} :
    (e.ledgerMessage r).1.Wants q w ↔ (q = r.peer ∧ w ∈ r.wants.map (·.want)) ∨
      (e.Wants q w ∧ ¬ (q = r.peer ∧ (r.full = true ∨ w ∈ r.cancels.map (·.want)))) := by
  unfold ledgerMessage
  dsimp only
  rw [wants_setLedger]
  by_cases hq : q = r.peer
  · subst hq
    rw [if_pos rfl, mem_foldl_wants, mem_foldl_cancelEntry]
    cases r.full with
    | true => simp
    | false =>
        have h := @mem_findOrCreate e r.peer w
        simp [h]
  · rw [if_neg hq, wants_findOrCreate]
    simp [hq]

theorem mem_foldl_wants_index {p q : PeerID} {w : Want} : ∀ (ws : List Message.Entry)
    (l : PeerLedger), (ws.foldl (fun l et => l.wants p et.want) l).Has q w ↔
      (q = p ∧ w ∈ ws.map (·.want)) ∨ l.Has q w
  | [], l => by simp
  | et :: ws, l => by
      rw [List.foldl_cons, mem_foldl_wants_index ws, PeerLedger.has_wants]
      simp only [List.map_cons, List.mem_cons]
      tauto

theorem has_foldl_cancelWant {p q : PeerID} {w : Want} : ∀ (cs : List Want) (l : PeerLedger),
    (cs.foldl (fun l c => l.cancelWant p c) l).Has q w ↔ l.Has q w ∧ ¬ (q = p ∧ w ∈ cs)
  | [], l => by simp
  | c :: cs, l => by
      rw [List.foldl_cons, has_foldl_cancelWant cs, PeerLedger.has_cancelWant]
      simp only [List.mem_cons]
      tauto

theorem has_indexMessage {e : Engine} {r : Received} {q : PeerID} {w : Want} :
    (e.indexMessage r).peerLedger.Has q w ↔
      ((q = r.peer ∧ w ∈ r.wants.map (·.want)) ∨ e.peerLedger.Has q w) ∧
        ¬ (q = r.peer ∧ w ∈ r.cancels.map (·.want)) := by
  have h := @has_foldl_cancelWant r.peer q w (r.cancels.map (·.want))
    (r.wants.foldl (fun l et => l.wants r.peer et.want) e.peerLedger)
  rw [List.foldl_map, mem_foldl_wants_index] at h
  exact h

/-- Cleaning up one want leaves an index entry whose want is in the ledger, and
every other one. -/
theorem has_cleanWant {e : Engine} {p q : PeerID} {l : PeerLedger} {k w : Want} (h : l.Has q w)
    (hkeep : p = q → k = w → e.Wants q w) : (e.cleanWant p l k).Has q w := by
  by_cases hpk : p = q ∧ k = w
  · obtain ⟨rfl, rfl⟩ := hpk
    obtain ⟨ledger, hled, hw⟩ := hkeep rfl rfl
    have hc : (ledger.wantListContains k).isSome := Wantlist.isSome_contains.mpr hw
    obtain ⟨entry, hentry⟩ := Option.isSome_iff_exists.mp hc
    simp only [cleanWant, hled, hentry]
    exact h
  · have hcancel : (l.cancelWant p k).Has q w :=
      PeerLedger.has_cancelWant.mpr ⟨fun h' => hpk ⟨h'.2.symm, h'.1.symm⟩, h⟩
    rw [cleanWant]
    split
    · split
      · exact h
      · exact hcancel
    · exact hcancel

theorem has_cleanUp {e : Engine} {missing : GoMap PeerID (List Want)} {o : RangeOrder} {q : PeerID}
    {w : Want} (h : e.peerLedger.Has q w)
    (hkeep : ∀ ws, missing.lookup q = some ws → w ∈ ws → e.Wants q w) :
    (e.cleanUp missing o).peerLedger.Has q w := by
  refine List.foldlRecOn (motive := fun l : PeerLedger => l.Has q w) _ _ h fun l hl m hm =>
    List.foldlRecOn (motive := fun l : PeerLedger => l.Has q w) _ _ hl fun l' hl' k hk => ?_
  have hlook := GoMap.mem_pairs.mp (RangeOrder.mem_range.mp hm)
  exact has_cleanWant hl' fun hp hkw => hkeep m.2 (hp ▸ hlook) (hkw ▸ hk)

theorem peerLedger_messageSent {e : Engine} {p : PeerID} {m : Message} {ob op : RangeOrder} :
    (e.messageSent p m ob op).peerLedger = e.peerLedger := peerLedger_findOrCreate

theorem peerLedger_peerConnected {e : Engine} {p : PeerID} :
    (e.peerConnected p).peerLedger = e.peerLedger := by
  rw [peerConnected]
  split <;> rfl

section Sent

variable {e : Engine} {p q : PeerID} {w : Want}

/-- The entry for the want in the peer's ledger. -/
def entryOf (e : Engine) (p : PeerID) (w : Want) : Option Wantlist.Entry :=
  (e.ledgerMap.lookup p).bind (·.wantListContains w)

theorem wants_iff_entryOf : e.Wants p w ↔ ∃ entry, e.entryOf p w = some entry := by
  rw [Wants, entryOf]
  cases e.ledgerMap.lookup p with
  | none => simp
  | some l =>
      simp only [Option.some.injEq, exists_eq_left', Option.bind_some]
      exact Wantlist.mem_iff

theorem entryOf_setLedger {l : Ledger} : (e.setLedger p l).entryOf q w =
    if q = p then l.wantListContains w else e.entryOf q w := by
  rw [entryOf, setLedger]
  dsimp only
  rw [GoMap.lookup_insert_ite]
  split <;> rfl

theorem contains_findOrCreate : (e.findOrCreate p).2.wantListContains w = e.entryOf p w := by
  rw [findOrCreate, entryOf]
  split
  · rename_i l hl
    rw [hl]
    rfl
  · rename_i hnone
    rw [hnone]
    rfl

theorem entryOf_findOrCreate : (e.findOrCreate p).1.entryOf q w = e.entryOf q w := by
  rw [findOrCreate]
  split
  · rfl
  · rename_i hnone
    refine (entryOf_setLedger (e := e) (l := .new p)).trans ?_
    split
    · rename_i hq
      rw [hq, entryOf, hnone]
      rfl
    · rfl

/-- The blocks of a message take their wants out of the ledger. -/
theorem lookup_foldl_blocks : ∀ (bs : List AuthBlock) (l : Wantlist),
    (bs.foldl (fun l b => (l.removeType b.want .wantBlock).1) l).set.lookup w =
      if w ∈ bs.map AuthBlock.want then none else l.set.lookup w
  | [], l => by simp
  | b :: bs, l => by
      rw [List.foldl_cons, lookup_foldl_blocks bs, Wantlist.lookup_removeType_wantBlock]
      by_cases hw : w = b.want
      · simp [hw]
      · simp [hw]

theorem lookup_foldl_presences : ∀ (bps : List (Want × BlockPresenceType)) (l : Wantlist),
    (bps.foldl (fun l bp => if bp.2 = .HAVE then (l.removeType bp.1 .wantHave).1 else l)
      l).set.lookup w =
      if (w, .HAVE) ∈ bps then Wantlist.onlyBlock (l.set.lookup w) else l.set.lookup w
  | [], l => by simp
  | (c, t) :: bps, l => by
      rw [List.foldl_cons, lookup_foldl_presences bps]
      by_cases ht : t = .HAVE
      · subst ht
        rw [if_pos rfl, Wantlist.lookup_removeType_wantHave]
        by_cases hw : w = c
        · subst hw
          simp [Wantlist.onlyBlock_idem]
        · simp [hw]
      · simp [ht, Ne.symm ht]

theorem entryOf_messageSent {m : Message} {ob op : RangeOrder} :
    (e.messageSent p m ob op).entryOf q w =
      if q = p then
        let entry := if w ∈ m.blocks.values.map AuthBlock.want then none else e.entryOf p w
        if m.blockPresences.lookup w = some .HAVE then Wantlist.onlyBlock entry else entry
      else e.entryOf q w := by
  rw [messageSent, entryOf_setLedger, entryOf_findOrCreate]
  split
  · refine (lookup_foldl_presences _ _).trans ?_
    have hentry := contains_findOrCreate (e := e) (p := p) (w := w)
    unfold Ledger.wantListContains Wantlist.contains at hentry
    rw [lookup_foldl_blocks, hentry]
    simp only [RangeOrder.mem_range, GoMap.mem_pairs, List.mem_map]
  · rfl

/-- The message has a block for the want, or a `HAVE` for the want that is in the ledger as a
want-have. -/
def AnsweredBy (e : Engine) (p : PeerID) (m : Message) (w : Want) : Prop :=
  w ∈ m.blocks.values.map AuthBlock.want ∨
    (m.blockPresences.lookup w = some .HAVE ∧
      ∃ entry, e.entryOf p w = some entry ∧ entry.wantType ≠ .wantBlock)

/-- What was answered is not in the ledger any more, and everything else is. -/
theorem wants_messageSent {m : Message} {ob op : RangeOrder} :
    (e.messageSent p m ob op).Wants q w ↔ e.Wants q w ∧ ¬ (q = p ∧ e.AnsweredBy p m w) := by
  rw [wants_iff_entryOf, entryOf_messageSent, wants_iff_entryOf, AnsweredBy]
  by_cases hq : q = p
  · subst hq
    cases hentry : e.entryOf q w with
    | none => simp [Wantlist.onlyBlock]
    | some entry =>
        by_cases hb : w ∈ m.blocks.values.map AuthBlock.want
        · simp [hb, Wantlist.onlyBlock]
        · by_cases hp : m.blockPresences.lookup w = some .HAVE
          · simp [hb, hp, Wantlist.onlyBlock_eq_some]
          · simp [hb, hp]
  · simp [hq]

end Sent

theorem wants_peerConnected {e : Engine} {p q : PeerID} {w : Want} :
    (e.peerConnected p).Wants q w ↔ e.Wants q w := by
  have h := @wants_findOrCreate e p q w
  rw [peerConnected]
  unfold findOrCreate at h
  split at h
  · rename_i l hl; rw [if_pos (GoMap.mem_of_lookup hl)]
  · rename_i hl
    rw [if_neg (fun hmem => by simp [AList.lookup_eq_none] at hl; exact hl hmem)]
    exact h

theorem wants_peerDisconnected {e : Engine} {p q : PeerID} {o : RangeOrder} {w : Want} :
    (e.peerDisconnected p o).Wants q w ↔ q ≠ p ∧ e.Wants q w := by
  unfold Wants peerDisconnected
  dsimp only
  rw [GoMap.lookup_erase_ite]
  by_cases hq : q = p <;> simp [hq]

theorem has_peerDisconnected {e : Engine} {p q : PeerID} {o : RangeOrder} {w : Want} :
    (e.peerDisconnected p o).peerLedger.Has q w ↔
      e.peerLedger.Has q w ∧ ¬ (q = p ∧ e.Wants p w) := by
  rw [peerDisconnected, Wants]
  dsimp only
  split
  · rename_i h; simp [h]
  · rename_i l h
    have hf := @has_foldl_cancelWant p q w ((l.wantList.entries o).map (·.want)) e.peerLedger
    rw [List.foldl_map] at hf
    have hmem : w ∈ (l.wantList.entries o).map (·.want) ↔ w ∈ l.wantList := by
      rw [List.mem_map]
      exact Wantlist.exists_mem_entries
    rw [hf, hmem, h]
    simp

end Engine

/-! ## Calls in progress -/

/-- The engine with the calls that are between two of their sections. -/
structure EngineSys where
  e : Engine
  received : List Engine.Received
  missing : List (GoMap PeerID (List Want))

namespace EngineSys

open Engine

/-- The critical sections, and changes of what the node stores. -/
inductive Action where
  | store (source : Blockstore)
  | indexMessage (p : PeerID) (m : Message) (o : RangeOrder) (s : Schedule)
  | ledgerMessage (i : Nat)
  | creditReceived (p : PeerID)
  | scan (blks : List AuthBlock) (o : Nat → RangeOrder)
  | cleanUp (i : Nat) (o : RangeOrder)
  | messageSent (p : PeerID) (m : Message) (ob op : RangeOrder)
  | peerConnected (p : PeerID)
  | peerDisconnected (p : PeerID) (o : RangeOrder)

/-- One section.  A call that has another section to come is kept; one that is
not in progress cannot take its next section. -/
def step (s : EngineSys) : Action → EngineSys
  | .store source => { s with e := { s.e with bs := { s.e.bs with source := source } } }
  | .indexMessage p m o sch =>
      match s.e.readMessage p m o sch with
      | none => s
      | some r => { s with e := s.e.indexMessage r, received := s.received ++ [r] }
  | .ledgerMessage i =>
      match s.received[i]? with
      | none => s
      | some r => { s with e := (s.e.ledgerMessage r).1, received := s.received.eraseIdx i }
  | .creditReceived p => { s with e := (s.e.findOrCreate p).1 }
  | .scan blks o =>
      let found := s.e.scan blks o
      if found.missingWants.len = 0 then s
      else { s with missing := s.missing ++ [found.missingWants] }
  | .cleanUp i o =>
      match s.missing[i]? with
      | none => s
      | some m => { s with e := s.e.cleanUp m o, missing := s.missing.eraseIdx i }
  | .messageSent p m ob op => { s with e := s.e.messageSent p m ob op }
  | .peerConnected p => { s with e := s.e.peerConnected p }
  | .peerDisconnected p o => { s with e := s.e.peerDisconnected p o }

/-- A new engine with no call in progress. -/
def start (bs : AuthedBlockstore) (maxReplaceSize : Nat) (send : Bool) : EngineSys :=
  ⟨(newEngine bs maxReplaceSize).setSendDontHaves send, [], []⟩

/-- No call is in progress. -/
def Quiet (s : EngineSys) : Prop := s.received = [] ∧ s.missing = []

/-- Every peer whose ledger has a want is found through the index. -/
def Complete (s : EngineSys) : Prop :=
  ∀ p l, s.e.ledgerMap.lookup p = some l → ∀ w ∈ l.wantList, ∀ o, p ∈ s.e.peerLedger.peers o w

/-- A message of the peer that asks for the want is between its two sections. -/
def HalfRecorded (s : EngineSys) (p : PeerID) (w : Want) : Prop :=
  ∃ r ∈ s.received, r.peer = p ∧ w ∈ r.wants.map (·.want)

/-- The section takes no half-recorded want out of the index: not by a cancel,
not by the clean-up of a want that is in no ledger, not by a disconnect. -/
def Undisturbed (s : EngineSys) : Action → Prop
  | .indexMessage p m _ _ =>
      ∀ w et, m.wantlist.lookup w = some et → et.cancel = true → ¬ s.HalfRecorded p w
  | .cleanUp i _ =>
      ∀ m, s.missing[i]? = some m → ∀ p ws, m.lookup p = some ws → ∀ w ∈ ws,
        s.HalfRecorded p w → s.e.Wants p w
  | .peerDisconnected p _ => ∀ w, s.e.Wants p w → ¬ s.HalfRecorded p w
  | _ => True

/-- What holds between sections: a half-recorded want is in the index; a want of
a ledger is, or a message that cancels it has yet to reach the ledger; and no
message both asks for a want and cancels it. -/
structure Inv (s : EngineSys) : Prop where
  half : ∀ p w, s.HalfRecorded p w → s.e.peerLedger.Has p w
  ledger : ∀ p w, s.e.Wants p w → s.e.peerLedger.Has p w ∨
    ∃ r ∈ s.received, r.peer = p ∧ w ∈ r.cancels.map (·.want)
  split : ∀ r ∈ s.received, ∀ w ∈ r.wants.map (·.want), w ∉ r.cancels.map (·.want)

theorem inv_start (bs : AuthedBlockstore) (maxReplaceSize : Nat) (send : Bool) :
    (start bs maxReplaceSize send).Inv :=
  ⟨fun _ _ h => absurd h.choose_spec.1 List.not_mem_nil,
    fun p _ h => by
      obtain ⟨l, hl, -⟩ := h
      simp [start, newEngine, setSendDontHaves] at hl,
    fun _ h => absurd h List.not_mem_nil⟩

/-! ## The sections keep the invariant -/

section Steps

variable {s : EngineSys}

/-- A section that changes no index entry and adds nothing to a ledger. -/
theorem Inv.of_wants {e : Engine} (h : s.Inv) (hix : e.peerLedger = s.e.peerLedger)
    (hw : ∀ p w, e.Wants p w → s.e.Wants p w) : Inv { s with e := e } :=
  ⟨fun p w hh => by rw [hix]; exact h.half p w hh,
    fun p w hh => by rw [hix]; exact h.ledger p w (hw p w hh), h.split⟩

theorem inv_indexMessage (p : PeerID) (m : Message) (o : RangeOrder) (sch : Schedule) (h : s.Inv)
    (hok : s.Undisturbed (.indexMessage p m o sch)) : (s.step (.indexMessage p m o sch)).Inv := by
  rw [step]
  split
  · exact h
  · rename_i r hr
    obtain ⟨hpeer, -, hcancels, -⟩ := readMessage_spec hr
    have hsplit := split_readMessage hr
    refine ⟨fun q w hh => has_indexMessage.mpr ?_, fun q w hw => ?_, fun r' hr' => ?_⟩
    · obtain ⟨r', hr', hq, hw⟩ := hh
      rcases List.mem_append.mp hr' with hr' | hr'
      · -- an earlier call: its want is in the index, and is not one cancelled now
        have hhalf : s.HalfRecorded q w := ⟨r', hr', hq, hw⟩
        refine ⟨.inr (h.half q w hhalf), fun hc => ?_⟩
        obtain ⟨et, het, rfl⟩ := List.mem_map.mp hc.2
        obtain ⟨hl, ht⟩ := (hcancels et).mp het
        exact hok et.want et hl ht (hpeer ▸ hc.1 ▸ hhalf)
      · obtain rfl := List.mem_singleton.mp hr'
        exact ⟨.inl ⟨hq.symm, hw⟩, fun hc => hsplit w hw hc.2⟩
    · by_cases hc : q = r.peer ∧ w ∈ r.cancels.map (·.want)
      · exact .inr ⟨r, by simp, hc.1.symm, hc.2⟩
      · rcases h.ledger q w hw with hx | ⟨r', hr', hx⟩
        · exact .inl (has_indexMessage.mpr ⟨.inr hx, hc⟩)
        · exact .inr ⟨r', List.mem_append_left _ hr', hx⟩
    · rcases List.mem_append.mp hr' with hr' | hr'
      · exact h.split r' hr'
      · obtain rfl := List.mem_singleton.mp hr'
        exact hsplit

theorem inv_ledgerMessage (i : Nat) (h : s.Inv) : (s.step (.ledgerMessage i)).Inv := by
  rw [step]
  split
  · exact h
  · rename_i r hr
    have hmem : r ∈ s.received := List.mem_of_getElem? hr
    have hsub : ∀ r' ∈ s.received.eraseIdx i, r' ∈ s.received :=
      fun r' h' => (List.eraseIdx_sublist _ _).subset h'
    have hix : (s.e.ledgerMessage r).1.peerLedger = s.e.peerLedger := peerLedger_ledgerMessage
    refine ⟨fun q w hh => ?_, fun q w hw => ?_, fun r' hr' => h.split r' (hsub r' hr')⟩
    · obtain ⟨r', hr', hx⟩ := hh
      rw [hix]
      exact h.half q w ⟨r', hsub r' hr', hx⟩
    · rw [hix]
      rcases wants_ledgerMessage.mp hw with ⟨hq, hin⟩ | ⟨hold, hnc⟩
      · exact .inl (h.half q w ⟨r, hmem, hq.symm, hin⟩)
      · rcases h.ledger q w hold with hx | ⟨r', hr', hq, hc⟩
        · exact .inl hx
        · -- the cancel that is still to come is another call's
          refine .inr ⟨r', ?_, hq, hc⟩
          obtain ⟨j, hj⟩ := List.mem_iff_getElem?.mp hr'
          refine List.mem_eraseIdx_iff_getElem?.mpr ⟨j, fun hij => hnc ?_, hj⟩
          subst hij
          obtain rfl := Option.some.inj (hr.symm.trans hj)
          exact ⟨hq.symm, .inr hc⟩

theorem inv_cleanUp (i : Nat) (o : RangeOrder) (h : s.Inv) (hok : s.Undisturbed (.cleanUp i o)) :
    (s.step (.cleanUp i o)).Inv := by
  rw [step]
  split
  · exact h
  · rename_i m hm
    refine ⟨fun q w hh => has_cleanUp (h.half q w hh) fun ws hws hw => hok m hm q ws hws w hw hh,
      fun q w hw => ?_, h.split⟩
    exact (h.ledger q w hw).imp_left fun hx => has_cleanUp hx fun _ _ _ => hw

theorem inv_peerDisconnected (p : PeerID) (o : RangeOrder) (h : s.Inv)
    (hok : s.Undisturbed (.peerDisconnected p o)) : (s.step (.peerDisconnected p o)).Inv := by
  refine ⟨fun q w hh => has_peerDisconnected.mpr ⟨h.half q w hh, fun hp => ?_⟩, fun q w hw => ?_,
    h.split⟩
  · exact hok w hp.2 (hp.1 ▸ hh)
  · obtain ⟨hq, hw⟩ := wants_peerDisconnected.mp hw
    exact (h.ledger q w hw).imp_left fun hx => has_peerDisconnected.mpr ⟨hx, fun hp => hq hp.1⟩

theorem inv_step (a : Action) (h : s.Inv) (hok : s.Undisturbed a) : (s.step a).Inv := by
  cases a with
  | store source => exact h.of_wants rfl fun _ _ hw => hw
  | indexMessage p m o sch => exact inv_indexMessage p m o sch h hok
  | ledgerMessage i => exact inv_ledgerMessage i h
  | creditReceived p =>
      exact h.of_wants peerLedger_findOrCreate fun _ _ hw => wants_findOrCreate.mp hw
  | scan blks o =>
      rw [step]
      split
      · exact h
      · exact ⟨h.half, h.ledger, h.split⟩
  | cleanUp i o => exact inv_cleanUp i o h hok
  | messageSent p m ob op =>
      exact h.of_wants peerLedger_messageSent fun _ _ hw => (wants_messageSent.mp hw).1
  | peerConnected p =>
      exact h.of_wants peerLedger_peerConnected fun _ _ hw => wants_peerConnected.mp hw
  | peerDisconnected p o => exact inv_peerDisconnected p o h hok

theorem Inv.complete (h : s.Inv) (hq : s.Quiet) : s.Complete := by
  intro p l hl w hw o
  rcases h.ledger p w ⟨l, hl, hw⟩ with hx | ⟨r, hr, -⟩
  · exact PeerLedger.mem_peers.mpr hx
  · rw [hq.1] at hr
    exact absurd hr List.not_mem_nil

end Steps

/-- **The index never misses a waiting peer.**  In a run whose sections take no
half-recorded want out of the index, whenever no call is in progress every peer
is in the index for every want of its ledger. -/
theorem index_complete (bs : AuthedBlockstore) (maxReplaceSize : Nat) (send : Bool)
    (as : List Action) (hok : Meets step Undisturbed (start bs maxReplaceSize send) as) :
    Always step (fun s => s.Quiet → s.Complete) (start bs maxReplaceSize send) as :=
  always_of_meets (I := Inv) (fun _ h hq => h.complete hq) (fun _ a h hok => inv_step a h hok) as
    (inv_start bs maxReplaceSize send) hok

/-- A block arrives while a want for it is half-recorded, and the clean-up comes
only once the want has reached the ledger: the peer stays in the index. -/
theorem index_complete_late_cleanUp :
    let w : Want := ⟨⟨[1]⟩, []⟩
    let p : PeerID := ⟨[7]⟩
    let as : List Action := [.indexMessage p (askFor w .wantBlock) .stored (.complete .stored),
      .scan [.new ⟨⟨[1]⟩, [10]⟩ []] (fun _ => .stored), .ledgerMessage 0]
    let s := run step (start ⟨.ofContent ∅, fun _ _ _ _ => true⟩ 1024 true)
      (as ++ [.cleanUp 0 .stored])
    s.Quiet ∧ s.e.Wants p w ∧ s.Complete := by
  intro w p as s
  have hs : (run step (start ⟨.ofContent ∅, fun _ _ _ _ => true⟩ 1024 true) as).received = [] :=
    List.isEmpty_iff.mp (by decide)
  have hq : s.Quiet :=
    ⟨List.isEmpty_iff.mp (by decide), List.isEmpty_iff.mp (by decide)⟩
  refine ⟨hq, by decide, ?_⟩
  have hok : Meets step Undisturbed (start ⟨.ofContent ∅, fun _ _ _ _ => true⟩ 1024 true)
      (as ++ [.cleanUp 0 .stored]) := by
    rw [meets_append]
    refine ⟨⟨fun _ _ _ _ h => absurd h.choose_spec.1 List.not_mem_nil, trivial, trivial, trivial⟩,
      ?_, trivial⟩
    rintro _ _ _ _ _ _ _ ⟨r, hr, -⟩
    rw [hs] at hr
    exact absurd hr List.not_mem_nil
  exact (index_complete _ 1024 true _ hok).last hq

/-- A want and its cancel on two streams: the cancel overtakes the want between
the two sections, and the ledger has a want that the index does not. -/
theorem index_misses_overtaken_want :
    let w : Want := ⟨⟨[1]⟩, []⟩
    let p : PeerID := ⟨[7]⟩
    let s := run step (start ⟨.ofContent ∅, fun _ _ _ _ => true⟩ 1024 true)
      [.indexMessage p (askFor w .wantBlock) .stored (.complete .stored),
        .indexMessage p ((Message.new false).cancel w).1 .stored (.complete .stored),
        .ledgerMessage 1, .ledgerMessage 0]
    s.Quiet ∧ s.e.Wants p w ∧ p ∉ s.e.peerLedger.peers .stored w ∧ ¬ s.Complete := by
  intro w p s
  have hw : s.e.Wants p w := by decide
  have hp : p ∉ s.e.peerLedger.peers .stored w := by decide
  refine ⟨⟨List.isEmpty_iff.mp (by decide), List.isEmpty_iff.mp (by decide)⟩,
    hw, hp, fun hc => ?_⟩
  obtain ⟨l, hl, hmem⟩ := hw
  exact hp (hc p l hl w hmem .stored)

end EngineSys

end BitswapAuth
