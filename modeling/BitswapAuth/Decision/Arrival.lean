/-
# `BitswapAuth.Decision.Arrival` — who hears of a block that arrives

When blocks arrive, `ReceiveFrom` looks in the index for the peers that are waiting
for them.  The index goes by want: the CID of the block and the auth string it
arrived with.  A peer that is waiting for the same block under another auth string
is not in that row, although the block is in the blockstore now, and a message
asking for it would be answered.

    Wants p (c, a)   block (c, a) arrives      a task for p
    Wants p (c, a)   block (c, b) arrives      nothing

With each call made as a whole the index is complete (`indexed_run`), so that this
is all that can go wrong: `served_iff`.  By want, what is pushed is exact: one task
for each peer whose wantlist has the want, made from the entry there, and no other
(`receiveFrom_serves`).
-/
import BitswapAuth.Decision.Index

namespace BitswapAuth

open Lib

namespace Engine

/-- The start of `ReceiveFrom`: the sender has a ledger, in which the bytes are counted. -/
def credited (e : Engine) (sender : PeerID) : Engine :=
  if sender = .empty then e else (e.findOrCreate sender).1

/-- `ReceiveFrom` with no other call between its sections. -/
def receiveFrom (e : Engine) (sender : PeerID) (blks : List AuthBlock) (o : Nat → RangeOrder)
    (oc : RangeOrder) : Engine × List QueueOp :=
  if blks.isEmpty then (e, [])
  else
    let e := e.credited sender
    let found := e.scan blks o
    (if found.missingWants.len = 0 then e else e.cleanUp found.missingWants oc, found.pushed)

/-! ## Engine calls, one after the other -/

/-- The calls on an engine, and changes of what the node stores. -/
inductive Call where
  | store (source : Blockstore)
  | messageReceived (p : PeerID) (m : Message) (o : RangeOrder) (s : Schedule)
  | receiveFrom (sender : PeerID) (blks : List AuthBlock) (o : Nat → RangeOrder) (oc : RangeOrder)
  | messageSent (p : PeerID) (m : Message) (ob op : RangeOrder)
  | peerConnected (p : PeerID)
  | peerDisconnected (p : PeerID) (o : RangeOrder)

def call (e : Engine) : Call → Engine
  | .store source => { e with bs := { e.bs with source := source } }
  | .messageReceived p m o s => (e.messageReceived p m o s).1
  | .receiveFrom sender blks o oc => (e.receiveFrom sender blks o oc).1
  | .messageSent p m ob op => e.messageSent p m ob op
  | .peerConnected p => e.peerConnected p
  | .peerDisconnected p o => e.peerDisconnected p o

/-- Every want of a ledger is in the index. -/
def Indexed (e : Engine) : Prop := ∀ p w, e.Wants p w → e.peerLedger.Has p w

variable {e : Engine} {p q : PeerID} {w k : Want}

/-- A call that leaves the index and adds nothing to a ledger. -/
theorem Indexed.of_wants {e' : Engine} (h : e.Indexed) (hix : e'.peerLedger = e.peerLedger)
    (hw : ∀ p w, e'.Wants p w → e.Wants p w) : e'.Indexed := by
  intro p w hpw
  rw [hix]
  exact h p w (hw p w hpw)

theorem indexed_messageReceived (h : e.Indexed) (p : PeerID) (m : Message) (o : RangeOrder)
    (s : Schedule) : (e.messageReceived p m o s).1.Indexed := by
  rw [messageReceived]
  cases hr : e.readMessage p m o s with
  | none => exact h
  | some r =>
      intro q w hw
      show ((e.indexMessage r).ledgerMessage r).1.peerLedger.Has q w
      rw [peerLedger_ledgerMessage, has_indexMessage]
      rcases wants_ledgerMessage.mp hw with ⟨hq, hin⟩ | ⟨hold, hnc⟩
      · exact ⟨.inl ⟨hq, hin⟩, fun hc => split_readMessage hr w hin hc.2⟩
      · exact ⟨.inr (h q w hold), fun hc => hnc ⟨hc.1, .inr hc.2⟩⟩

theorem indexed_credited (h : e.Indexed) (sender : PeerID) : (e.credited sender).Indexed := by
  rw [credited]
  split
  · exact h
  · exact h.of_wants peerLedger_findOrCreate fun _ _ hw => wants_findOrCreate.mp hw

theorem indexed_receiveFrom (h : e.Indexed) (sender : PeerID) (blks : List AuthBlock)
    (o : Nat → RangeOrder) (oc : RangeOrder) : (e.receiveFrom sender blks o oc).1.Indexed := by
  have hcredit := indexed_credited h sender
  rw [receiveFrom]
  split
  · exact h
  · dsimp only
    split
    · exact hcredit
    · exact fun p w hw => has_cleanUp (hcredit p w hw) fun _ _ _ => hw

theorem indexed_call (h : e.Indexed) (c : Call) : (e.call c).Indexed := by
  cases c with
  | store source => exact h.of_wants rfl fun _ _ hw => hw
  | messageReceived p m o s => exact indexed_messageReceived h p m o s
  | receiveFrom sender blks o oc => exact indexed_receiveFrom h sender blks o oc
  | messageSent p m ob op =>
      exact h.of_wants peerLedger_messageSent fun _ _ hw => (wants_messageSent.mp hw).1
  | peerConnected p =>
      exact h.of_wants peerLedger_peerConnected fun _ _ hw => wants_peerConnected.mp hw
  | peerDisconnected p o =>
      intro q w hw
      obtain ⟨hq, hw⟩ := wants_peerDisconnected.mp hw
      exact has_peerDisconnected.mpr ⟨h q w hw, fun hp => hq hp.1⟩

theorem indexed_run {e : Engine} (h : e.ledgerMap = ∅) (calls : List Call) :
    (run call e calls).Indexed := by
  have hstep : ∀ (e : Engine) (c : Call), e.Indexed → (e.call c).Indexed :=
    fun e c h => indexed_call h c
  refine run_invariant hstep calls fun p w hw => ?_
  obtain ⟨l, hl, -⟩ := hw
  simp [h] at hl

/-! ## What the scan pushes -/

/-- A task for the want is pushed for the peer. -/
def Pushes (ops : List QueueOp) (p : PeerID) (w : Want) : Prop :=
  ∃ t ∈ tasksFor p ops, t.topic = w

instance (ops : List QueueOp) (p : PeerID) (w : Want) : Decidable (Pushes ops p w) :=
  inferInstanceAs (Decidable (∃ t ∈ tasksFor p ops, t.topic = w))

/-- The task for a block that has arrived, for a peer whose ledger has the want. -/
def arrivalTask (e : Engine) (p : PeerID) (w : Want) (size : Nat) : Option Task :=
  (e.entryOf p w).map fun entry =>
    e.foundTask entry.want entry.priority entry.wantType size false

theorem topic_arrivalTask {size : Nat} {t : Task} (h : e.arrivalTask p w size = some t) :
    t.topic = w := by
  obtain ⟨entry, hentry, rfl⟩ := Option.map_eq_some_iff.mp h
  obtain ⟨l, -, hl⟩ := Option.bind_eq_some_iff.mp hentry
  exact l.wantList.keyed w entry hl

theorem exists_arrivalTask {size : Nat} :
    (∃ t, e.arrivalTask p w size = some t) ↔ e.Wants p w := by
  rw [arrivalTask, ← Option.isSome_iff_exists, Option.isSome_map, Option.isSome_iff_exists,
    wants_iff_entryOf]

/-- A peer of the index is pushed the task, if its ledger has the want. -/
theorem tasksFor_scanPeer {size : Nat} {s : Scan} :
    tasksFor q (e.scanPeer w size s p).pushed =
      tasksFor q s.pushed ++ if p = q then (e.arrivalTask q w size).toList else [] := by
  rw [scanPeer, arrivalTask, entryOf]
  by_cases hq : p = q
  · subst hq
    cases hl : e.ledgerMap.lookup p with
    | none => simp
    | some l =>
        cases he : l.wantListContains w with
        | none => simp [he]
        | some entry => simp [he, tasksFor]
  · cases e.ledgerMap.lookup p with
    | none => simp [hq]
    | some l =>
        cases he : l.wantListContains w with
        | none => simp [he, hq]
        | some entry => simp [he, hq, tasksFor]

theorem tasksFor_foldl_scanPeer {size : Nat} : ∀ (ps : List PeerID) (s : Scan), ps.Nodup →
    tasksFor q (ps.foldl (e.scanPeer w size) s).pushed =
      tasksFor q s.pushed ++ if q ∈ ps then (e.arrivalTask q w size).toList else []
  | [], s, _ => by simp
  | p :: ps, s, hnd => by
      obtain ⟨hp, hnd⟩ := List.nodup_cons.mp hnd
      rw [List.foldl_cons, tasksFor_foldl_scanPeer ps _ hnd, tasksFor_scanPeer, List.append_assoc]
      by_cases hq : p = q
      · subst hq
        simp [hp]
      · simp [hq, Ne.symm hq]

theorem nodup_peers {l : PeerLedger} {o : RangeOrder} : (l.peers o w).Nodup := by
  rw [PeerLedger.peers]
  split
  · exact List.nodup_nil
  · rename_i m _
    exact RangeOrder.nodup_range.mpr m.keys_nodup

/-- The sizes by want, as `ReceiveFrom` collects them. -/
def sizesOf (blks : List AuthBlock) : GoMap Want Nat :=
  blks.foldl (fun m b => m.insert b.want b.size) ∅

/-- A peer is pushed a task for every block whose want is in its ledger. -/
theorem tasksFor_scan (h : e.Indexed) {blks : List AuthBlock} {o : Nat → RangeOrder} :
    tasksFor q (e.scan blks o).pushed = blks.filterMap fun b =>
      e.arrivalTask q b.want (((sizesOf blks).lookup b.want).getD 0) := by
  have hfold : ∀ (sizes : GoMap Want Nat) (bs : List (AuthBlock × Nat)) (s : Scan),
      tasksFor q (bs.foldl (fun s b => (e.peerLedger.peers (o b.2) b.1.want).foldl
        (e.scanPeer b.1.want ((sizes.lookup b.1.want).getD 0)) s) s).pushed =
      tasksFor q s.pushed ++ (bs.map Prod.fst).filterMap fun b =>
        e.arrivalTask q b.want ((sizes.lookup b.want).getD 0) := by
    intro sizes bs
    induction bs with
    | nil => intro s; simp
    | cons b bs ih =>
        intro s
        rw [List.foldl_cons, ih, tasksFor_foldl_scanPeer _ _ nodup_peers, List.map_cons,
          List.filterMap_cons, List.append_assoc]
        cases ht : e.arrivalTask q b.1.want ((sizes.lookup b.1.want).getD 0) with
        | none => simp
        | some t =>
            have hmem : q ∈ e.peerLedger.peers (o b.2) b.1.want :=
              PeerLedger.mem_peers.mpr (h q b.1.want (exists_arrivalTask.mp ⟨t, ht⟩))
            simp [hmem]
  have hscan := hfold (sizesOf blks) blks.zipIdx ⟨[], ∅⟩
  rw [List.zipIdx_map_fst] at hscan
  exact hscan

theorem wants_credited {sender : PeerID} : (e.credited sender).Wants q k ↔ e.Wants q k := by
  rw [credited]
  split
  · rfl
  · exact wants_findOrCreate

theorem arrivalTask_credited {sender : PeerID} {size : Nat} :
    (e.credited sender).arrivalTask p w size = e.arrivalTask p w size := by
  rw [credited]
  split
  · rfl
  · have hentry := entryOf_findOrCreate (e := e) (p := sender) (q := p) (w := w)
    rw [arrivalTask, arrivalTask, hentry]
    rw [findOrCreate]
    split <;> rfl

theorem tasksFor_receiveFrom (h : e.Indexed) {sender : PeerID} {blks : List AuthBlock}
    {o : Nat → RangeOrder} {oc : RangeOrder} :
    tasksFor q (e.receiveFrom sender blks o oc).2 = blks.filterMap fun b =>
      e.arrivalTask q b.want (((sizesOf blks).lookup b.want).getD 0) := by
  rw [receiveFrom]
  split
  · rename_i hb
    rw [List.isEmpty_iff.mp hb]
    rfl
  · dsimp only
    rw [tasksFor_scan (indexed_credited h sender)]
    simp only [arrivalTask_credited]

/-- `ReceiveFrom` pushes a task for every peer that waits for a want that a block arrived
for, and no other. -/
theorem pushes_receiveFrom (h : e.Indexed) {sender : PeerID} {blks : List AuthBlock}
    {o : Nat → RangeOrder} {oc : RangeOrder} :
    Pushes (e.receiveFrom sender blks o oc).2 q k ↔ k ∈ blks.map AuthBlock.want ∧ e.Wants q k := by
  rw [Pushes, tasksFor_receiveFrom h]
  constructor
  · rintro ⟨t, ht, rfl⟩
    obtain ⟨b, hb, ht⟩ := List.mem_filterMap.mp ht
    rw [topic_arrivalTask ht]
    exact ⟨List.mem_map_of_mem hb, exists_arrivalTask.mp ⟨t, ht⟩⟩
  · rintro ⟨hk, hw⟩
    obtain ⟨b, hb, rfl⟩ := List.mem_map.mp hk
    obtain ⟨t, ht⟩ := exists_arrivalTask.mpr hw
    exact ⟨t, List.mem_filterMap.mpr ⟨b, hb, ht⟩, topic_arrivalTask ht⟩

/-- **A block that arrives reaches the peers waiting for it**, whatever calls were made
before, just when every auth string that a peer waits for it under is one that it arrived
with. -/
theorem served_iff (bs : AuthedBlockstore) (maxReplaceSize : Nat) (send : Bool)
    (calls : List Call) (sender : PeerID) (blks : List (Block × Bytes)) (o : Nat → RangeOrder)
    (oc : RangeOrder) :
    let e := run call ((newEngine bs maxReplaceSize).setSendDontHaves send) calls
    (∀ b ∈ blks, ∀ p a, e.Wants p ⟨b.1.cid, a⟩ →
        Pushes (e.receiveFrom sender (blks.map fun b => .new b.1 b.2) o oc).2 p ⟨b.1.cid, a⟩) ↔
      ∀ b ∈ blks, ∀ p a, e.Wants p ⟨b.1.cid, a⟩ → ∃ b' ∈ blks, b'.1.cid = b.1.cid ∧ b'.2 = a := by
  intro e
  have hix : e.Indexed := indexed_run rfl calls
  refine forall₂_congr fun b _ => forall₂_congr fun p a => forall_congr' fun hw => ?_
  rw [pushes_receiveFrom hix, and_iff_left hw, List.map_map, List.mem_map]
  refine exists_congr fun b' => and_congr_right fun _ => ?_
  show (⟨b'.1.cid, b'.2⟩ : Want) = ⟨b.1.cid, a⟩ ↔ _
  rw [Want.mk.injEq]

/-- A peer waits for a block under one auth string, and the block arrives with another: the
peer is pushed nothing, although it would be answered if it asked now. -/
theorem unserved_other_auth :
    let blk : Block := ⟨⟨[1]⟩, [10]⟩
    let w : Want := ⟨⟨[1]⟩, [65]⟩
    let p : PeerID := ⟨[7]⟩
    let calls : List Call := [.messageReceived p (askFor w .wantBlock) .stored (.complete .stored),
      .store (.ofContent ((∅ : GoMap Cid Bytes).insert ⟨[1]⟩ [10]))]
    let e := run call (Engine.new ⟨.ofContent ∅, fun _ _ _ _ => true⟩) calls
    let ops := (e.receiveFrom ⟨[8]⟩ [.new blk [66]] (fun _ => .stored) .stored).2
    e.Wants p w ∧ w.cid = blk.cid ∧ ¬ Pushes ops p w ∧
      Pushes (e.receiveFrom ⟨[8]⟩ [.new blk [65]] (fun _ => .stored) .stored).2 p w ∧
      Pushes (e.messageReceived p (askFor w .wantBlock) .stored (.complete .stored)).2 p w := by
  decide

/-! ## The tasks, one by one -/

theorem lookup_sizesOf {blks : List AuthBlock} (hnd : (blks.map AuthBlock.want).Nodup)
    {b : AuthBlock} (hb : b ∈ blks) : (sizesOf blks).lookup b.want = some b.size := by
  obtain ⟨m, -, hm⟩ := foldl_own (f := fun (m : GoMap Want Nat) (b : AuthBlock) =>
    m.insert b.want b.size) (AList.lookup b.want) AuthBlock.want hnd hb
    (fun m b' hne => AList.lookup_insert_ne hne.symm) ∅
  rw [sizesOf, hm]
  exact AList.lookup_insert _

/-- Of the tasks for different wants those with one topic are the one for its block. -/
theorem filter_topic_filterMap {f : AuthBlock → Option Task}
    (hf : ∀ b t, f b = some t → t.topic = b.want) {blks : List AuthBlock}
    (hnd : (blks.map AuthBlock.want).Nodup) {b : AuthBlock} (hb : b ∈ blks) :
    (blks.filterMap f).filter (fun t => t.topic = b.want) = (f b).toList := by
  obtain ⟨l₁, l₂, rfl⟩ := List.append_of_mem hb
  rw [List.map_append, List.map_cons, List.perm_middle.nodup_iff, List.nodup_cons,
    List.mem_append, not_or] at hnd
  have hother : ∀ l : List AuthBlock, b.want ∉ l.map AuthBlock.want →
      (l.filterMap f).filter (fun t => t.topic = b.want) = [] := by
    intro l hl
    refine List.filter_eq_nil_iff.mpr fun t ht htopic => hl ?_
    obtain ⟨b', hb', hft⟩ := List.mem_filterMap.mp ht
    rw [← of_decide_eq_true htopic, hf b' t hft]
    exact List.mem_map_of_mem hb'
  rw [List.filterMap_append, List.filter_append, hother l₁ hnd.1.1, List.nil_append,
    List.filterMap_cons]
  cases hfb : f b with
  | none => exact hother l₂ hnd.1.2
  | some t =>
      dsimp only
      rw [List.filter_cons_of_pos (by simpa using hf b t hfb), hother l₂ hnd.1.2]
      rfl

theorem lookup_credited {sender : PeerID} : (e.credited sender).ledgerMap.lookup p =
    if p = sender ∧ sender ≠ .empty then some ((e.ledgerMap.lookup p).getD (.new p))
    else e.ledgerMap.lookup p := by
  rw [credited]
  by_cases hs : sender = .empty
  · simp [hs]
  · rw [if_neg hs, findOrCreate]
    split
    · rename_i l hl
      split
      · rename_i hp
        rw [hp.1, hl]
        rfl
      · rfl
    · rename_i hnone
      dsimp only
      rw [GoMap.lookup_insert_ite]
      by_cases hp : p = sender
      · subst hp
        simp [hs, hnone]
      · simp [hp]

theorem ledgerMap_receiveFrom {sender : PeerID} {blks : List AuthBlock} {o : Nat → RangeOrder}
    {oc : RangeOrder} (hne : blks ≠ []) :
    (e.receiveFrom sender blks o oc).1.ledgerMap = (e.credited sender).ledgerMap := by
  rw [receiveFrom, if_neg (by simpa using hne)]
  dsimp only
  split <;> rfl

/-- The clean-up leaves the index entries of the wants that are in a ledger. -/
theorem has_receiveFrom {sender : PeerID} {blks : List AuthBlock} {o : Nat → RangeOrder}
    {oc : RangeOrder} (h : e.peerLedger.Has p w) (hw : e.Wants p w) :
    (e.receiveFrom sender blks o oc).1.peerLedger.Has p w := by
  have hcredit : (e.credited sender).peerLedger.Has p w := by
    rw [credited]
    split
    · exact h
    · rw [peerLedger_findOrCreate]
      exact h
  rw [receiveFrom]
  split
  · exact h
  · dsimp only
    split
    · exact hcredit
    · exact has_cleanUp hcredit fun _ _ _ => wants_credited.mpr hw

/-- What a call of `ReceiveFrom` comes to: one task for each block and each peer whose
wantlist has its want, made from the entry there; no other task; no wantlist is changed, a
ledger that is new being empty; and what is taken out of the index is in no wantlist. -/
structure Serves (e : Engine) (blks : List AuthBlock) (r : Engine × List QueueOp) : Prop where
  pushes : ∀ b ∈ blks, ∀ p l entry, e.ledgerMap.lookup p = some l →
    l.wantListContains b.want = some entry →
    let isWantBlock : Bool :=
      decide (entry.wantType = .wantBlock ∨ b.size ≤ e.maxBlockSizeReplaceHasWithBlock)
    (tasksFor p r.2).filter (fun t => t.topic = b.want) =
      [{ topic := b.want
         priority := entry.priority.toInt
         work := if isWantBlock then b.size else blockPresenceSize b.want
         data := ⟨b.size, true, isWantBlock, false⟩ }]
  only : ∀ p, ∀ t ∈ tasksFor p r.2, e.Wants p t.topic
  ledgers : ∀ p l, e.ledgerMap.lookup p = some l → r.1.ledgerMap.lookup p = some l
  created : ∀ p l, r.1.ledgerMap.lookup p = some l → e.ledgerMap.lookup p = none →
    l.wantList = .new
  removed : ∀ p w, e.peerLedger.Has p w → ¬ r.1.peerLedger.Has p w → ¬ e.Wants p w

theorem serves_receiveFrom (h : e.Indexed) {sender : PeerID} {blks : List AuthBlock}
    {o : Nat → RangeOrder} {oc : RangeOrder} (hnd : (blks.map AuthBlock.want).Nodup) :
    e.Serves blks (e.receiveFrom sender blks o oc) := by
  refine ⟨fun b hb p l entry hl hentry => ?_, fun p t ht => ?_, fun p l hl => ?_,
    fun p l hl hnone => ?_, fun p w hhas hnot hw => hnot (has_receiveFrom hhas hw)⟩
  · have htask : e.arrivalTask p b.want b.size =
        some (e.foundTask b.want entry.priority entry.wantType b.size false) := by
      rw [arrivalTask, entryOf, hl, Option.bind_some, hentry, Option.map_some,
        l.wantList.keyed b.want entry hentry]
    intro isWantBlock
    rw [tasksFor_receiveFrom h, filter_topic_filterMap (fun _ _ ht => topic_arrivalTask ht) hnd hb,
      lookup_sizesOf hnd hb, Option.getD_some, htask]
    simp [foundTask, sendAsBlock, isWantBlock]
  · rw [tasksFor_receiveFrom h] at ht
    obtain ⟨b, -, ht⟩ := List.mem_filterMap.mp ht
    rw [topic_arrivalTask ht]
    exact exists_arrivalTask.mp ⟨t, ht⟩
  · cases hblks : blks with
    | nil => exact hl
    | cons b bs =>
        rw [ledgerMap_receiveFrom (List.cons_ne_nil b bs), lookup_credited, hl]
        split <;> rfl
  · cases hblks : blks with
    | nil =>
        rw [hblks] at hl
        rw [show (e.receiveFrom sender [] o oc).1 = e from rfl, hnone] at hl
        cases hl
    | cons b bs =>
        rw [hblks, ledgerMap_receiveFrom (List.cons_ne_nil b bs), lookup_credited, hnone] at hl
        split at hl
        · obtain rfl := Option.some.inj hl
          rfl
        · cases hl

/-- **`ReceiveFrom` serves the recorded wants**, after any calls on the engine. -/
theorem receiveFrom_serves (bs : AuthedBlockstore) (maxReplaceSize : Nat) (send : Bool)
    (calls : List Call) (sender : PeerID) (blks : List AuthBlock) (o : Nat → RangeOrder)
    (oc : RangeOrder) (hnd : (blks.map AuthBlock.want).Nodup) :
    let e := run call ((newEngine bs maxReplaceSize).setSendDontHaves send) calls
    e.Serves blks (e.receiveFrom sender blks o oc) :=
  serves_receiveFrom (indexed_run rfl calls) hnd

/-- A peer asks for a block, as a want-have, and the block arrives: it is small, and the task is
to send it. -/
theorem receiveFrom_serves_small_block :
    let w : Want := ⟨⟨[1]⟩, [65]⟩
    let p : PeerID := ⟨[7]⟩
    let e := run call ((newEngine ⟨.ofContent ∅, fun _ _ _ _ => true⟩ 1024).setSendDontHaves true)
      [.messageReceived p (askFor w .wantHave) .stored (.complete .stored)]
    let r := e.receiveFrom ⟨[8]⟩ [.new ⟨⟨[1]⟩, [10, 20]⟩ [65]] (fun _ => .stored) .stored
    e.Wants p w ∧ e.Serves [.new ⟨⟨[1]⟩, [10, 20]⟩ [65]] r ∧
      (tasksFor p r.2).map (fun t => (t.work, t.data.isWantBlock)) = [(2, true)] := by
  intro w p e r
  refine ⟨by decide, ?_, by decide⟩
  exact receiveFrom_serves _ 1024 true
    [.messageReceived p (askFor w .wantHave) .stored (.complete .stored)] ⟨[8]⟩ _ _ _ (by decide)

end Engine

end BitswapAuth
