/-
# `BitswapAuth.Decision.Serving` — what goes out, and to whom

Two results on the path from a popped task to an envelope.

A block is put into an envelope under a want only if the authenticated
blockstore released it to that peer under that want's auth string
(`nextEnvelope_authorised`).  The argument follows the want through the three
tables it passes: the tasks split by topic, the fetched blocks keyed by want,
and the message's blocks keyed by the block's own CID and the auth string.

A `HAVE`, on the other hand, is decided from the size of the block alone, so it
says that the block is stored and not that it will be released.  A peer that is
told `HAVE` gets the block just when `allow` accepts it (`block_after_have_iff`).
-/
import BitswapAuth.Decision.Engine

namespace BitswapAuth

open Lib AuthedBlockstore

/-! ## From tasks to a message -/

/-- The task calls for the block itself. -/
def Task.AsksBlock (t : Task) : Prop := t.data.haveBlock = true ∧ t.data.isWantBlock = true

/-- What the splitting loop leaves. -/
structure Split (tasks : List Task) (s s' : SplitTasks) : Prop where
  blockWants : ∀ w, w ∈ s'.blockWants ↔ w ∈ s.blockWants ∨ ∃ t ∈ tasks, t.topic = w ∧ t.AsksBlock
  blockTasks : ∀ w, w ∈ s'.blockTasks ↔ w ∈ s.blockTasks ∨ ∃ t ∈ tasks, t.topic = w ∧ t.AsksBlock
  blocks : s'.msg.blocks = s.msg.blocks
  haves : ∀ w, s'.msg.blockPresences.lookup w = some .HAVE →
    s.msg.blockPresences.lookup w = some .HAVE ∨
      ∃ t ∈ tasks, t.topic = w ∧ t.data.haveBlock = true

theorem splitTask_spec (s : SplitTasks) (t : Task) : Split [t] s (splitTask s t) := by
  rw [splitTask]
  split
  · rename_i hh
    split
    · rename_i hb
      have hask : t.AsksBlock := ⟨hh, hb⟩
      exact ⟨fun w => by simp [hask, eq_comm],
        fun w => by simp [hask, AList.mem_insert, or_comm, eq_comm],
        rfl, fun w h => .inl h⟩
    · rename_i hb
      have hask : ¬ t.AsksBlock := fun h => hb h.2
      refine ⟨fun w => by simp [hask], fun w => by simp [hask], by simp, fun w h => ?_⟩
      rw [Message.addHave, Message.lookup_addBlockPresence] at h
      split at h
      · rename_i hw; exact .inr ⟨t, List.mem_singleton_self t, hw.1.symm, hh⟩
      · exact .inl h
  · rename_i hh
    have hask : ¬ t.AsksBlock := fun h => hh h.1
    refine ⟨fun w => by simp [hask], fun w => by simp [hask], by simp, fun w h => ?_⟩
    rw [Message.addDontHave, Message.lookup_addBlockPresence] at h
    split at h
    · exact absurd h (by simp)
    · exact .inl h

theorem Split.append {ts ts' : List Task} {s s' s'' : SplitTasks} (h : Split ts s s')
    (h' : Split ts' s' s'') : Split (ts ++ ts') s s'' := by
  have hor : ∀ {P : Task → Prop}, (∃ t ∈ ts ++ ts', P t) ↔ (∃ t ∈ ts, P t) ∨ ∃ t ∈ ts', P t := by
    intro P
    simp only [List.mem_append, or_and_right, exists_or]
  refine ⟨fun w => ?_, fun w => ?_, h'.blocks.trans h.blocks, fun w hw => ?_⟩
  · rw [h'.blockWants, h.blockWants, hor, or_assoc]
  · rw [h'.blockTasks, h.blockTasks, hor, or_assoc]
  · rw [hor, ← or_assoc]
    exact (h'.haves w hw).imp_left (h.haves w)

theorem foldl_splitTask_spec : ∀ (ts : List Task) (s : SplitTasks),
    Split ts s (ts.foldl splitTask s)
  | [], s => ⟨fun w => by simp, fun w => by simp, rfl, fun w h => .inl h⟩
  | t :: ts, s => (splitTask_spec s t).append (foldl_splitTask_spec ts _)

section Fetched

variable {blks : GoMap Want Block} (hcid : ∀ w b, blks.lookup w = some b → b.cid = w.cid)

include hcid

theorem lookup_blocks_addFetched {msg : Message} {t : Want × TaskData} {w : Want} :
    (addFetched blks msg t).blocks.lookup w =
      (if w = t.1 then (blks.lookup w).map (AuthBlock.new · w.auth) else none).or
        (msg.blocks.lookup w) := by
  rw [addFetched]
  split
  · rename_i hn
    have hblocks : (if t.2.sendDontHave then msg.addDontHave t.1 else msg).blocks = msg.blocks := by
      split <;> simp
    rw [hblocks]
    split
    · rename_i hw; subst hw; simp [hn]
    · rfl
  · rename_i b hb
    -- the block is filed under its own CID, which is the want's
    have hkey : (⟨b.cid, t.1.auth⟩ : Want) = t.1 := by rw [hcid t.1 b hb]
    rw [Message.lookup_blocks_addBlock, hkey]
    split
    · rename_i hw; subst hw; simp [hb]
    · rfl

/-- The blocks of the message once the fetched blocks are in. -/
theorem lookup_blocks_foldl_addFetched {w : Want} : ∀ (ts : List (Want × TaskData)) (msg : Message),
    (ts.foldl (addFetched blks) msg).blocks.lookup w =
      (if w ∈ ts.map Prod.fst then (blks.lookup w).map (AuthBlock.new · w.auth) else none).or
        (msg.blocks.lookup w)
  | [], msg => by simp
  | t :: ts, msg => by
      rw [List.foldl_cons, lookup_blocks_foldl_addFetched ts, lookup_blocks_addFetched hcid]
      simp only [List.map_cons, List.mem_cons]
      by_cases ht : w = t.1
      · subst ht
        cases blks.lookup t.1 <;> by_cases hts : t.1 ∈ ts.map Prod.fst <;> simp [hts]
      · simp only [ht, if_false, false_or, Option.none_or]

omit hcid

theorem dataOfBlocks_foldl_addFetched : ∀ (ts : List (Want × TaskData)) (msg : Message),
    msg.DataOfBlocks → (ts.foldl (addFetched blks) msg).DataOfBlocks
  | [], _, h => h
  | t :: ts, msg, h => by
      refine dataOfBlocks_foldl_addFetched ts _ ?_
      rw [addFetched]
      split
      · split
        · exact h.addBlockPresence _ _
        · exact h
      · exact h.addBlock _ _

theorem have_of_foldl_addFetched {w : Want} : ∀ (ts : List (Want × TaskData)) (msg : Message),
    (ts.foldl (addFetched blks) msg).blockPresences.lookup w = some .HAVE →
      msg.blockPresences.lookup w = some .HAVE
  | [], _, h => h
  | t :: ts, msg, h => by
      have h' := have_of_foldl_addFetched ts _ h
      unfold addFetched at h'
      split at h'
      · split at h'
        · rw [Message.addDontHave, Message.lookup_addBlockPresence] at h'
          split at h'
          · exact absurd h' (by simp)
          · exact h'
        · exact h'
      · rw [Message.lookup_presences_addBlock] at h'
        split at h'
        · exact absurd h' (by simp)
        · exact h'

end Fetched

/-! ## What a batch is answered with -/

/-- **One batch.**  Under the assumption that a lookup finds the block it is
for, the message holds a block just for the wants that were tasks for
the block and whose block is found. -/
structure Answers (found : Want → Except StoreErr Block) (pop : Pop) (msg : Message) : Prop where
  block : ∀ w ab, msg.blocks.lookup w = some ab ↔
    (∃ t ∈ pop.tasks, t.topic = w ∧ t.AsksBlock) ∧
      ∃ b, found w = .ok b ∧ ab = AuthBlock.new b w.auth
  data : msg.DataOfBlocks
  haves : ∀ w, msg.blockPresences.lookup w = some .HAVE →
    ∃ t ∈ pop.tasks, t.topic = w ∧ t.data.haveBlock = true

theorem batchMessage_spec {found : Want → Except StoreErr Block}
    (hfound : ∀ w b, found w = .ok b → b.cid = w.cid) {pop : Pop} {msg : Message}
    (h : batchMessage found pop = some msg) : Answers found pop msg := by
  unfold batchMessage at h
  dsimp only at h
  have hs := foldl_splitTask_spec pop.tasks
    ⟨(Message.new false).setPendingBytes (Int32.ofInt pop.pendingBytes), [], ∅⟩
  set s := pop.tasks.foldl splitTask
    ⟨(Message.new false).setPendingBytes (Int32.ofInt pop.pendingBytes), [], ∅⟩
  have hblocks : s.msg.blocks = ∅ := hs.blocks
  split at h
  · exact absurd h (by simp)
  · rename_i blks hblks
    obtain rfl := Option.some.inj h
    have hget := @lookup_getBlocks _ _ _ _ hblks
    have hcid : ∀ w b, blks.lookup w = some b → b.cid = w.cid :=
      fun w b hb => hfound w b (hget.mp hb).2
    refine ⟨fun w ab => ?_, dataOfBlocks_foldl_addFetched _ _ ?_, fun w hw => ?_⟩
    · have hkeys : w ∈ (pop.order.range s.blockTasks.pairs).map Prod.fst ↔ w ∈ s.blockTasks := by
        rw [((pop.order.range_perm s.blockTasks.pairs).map Prod.fst).mem_iff, GoMap.map_fst_pairs,
          AList.mem_keys]
      rw [lookup_blocks_foldl_addFetched hcid, hblocks]
      have ht : w ∈ s.blockTasks ↔ ∃ t ∈ pop.tasks, t.topic = w ∧ t.AsksBlock := by
        simpa using hs.blockTasks w
      have hw : w ∈ s.blockWants ↔ ∃ t ∈ pop.tasks, t.topic = w ∧ t.AsksBlock := by
        simpa using hs.blockWants w
      rw [← ht]
      split
      · rename_i hk
        have hmem := hkeys.mp hk
        simp only [AList.lookup_empty, Option.or_none, Option.map_eq_some_iff, hmem, true_and,
          hget, hw.mpr (ht.mp hmem)]
        exact ⟨fun ⟨b, h₁, h₂⟩ => ⟨b, h₁, h₂.symm⟩, fun ⟨b, h₁, h₂⟩ => ⟨b, h₁, h₂.symm⟩⟩
      · rename_i hk
        have hmem := mt hkeys.mpr hk
        simp [hmem]
    · intro w b hb
      simp [hblocks] at hb
    · rcases hs.haves w (have_of_foldl_addFetched _ _ hw) with h0 | ht
      · exact absurd h0 (by simp [Message.setPendingBytes, Message.new])
      · exact ht

/-- A batch that calls for no message is passed over. -/
theorem nextEnvelope_passes {b : PoppedBatch} (bs : List PoppedBatch)
    (h : b.pop.tasks = [] ∨ ∃ msg, batchMessage b.found b.pop = some msg ∧ msg.empty = true) :
    (nextEnvelope (b :: bs)).envelope = (nextEnvelope bs).envelope ∧
      (nextEnvelope (b :: bs)).rest = (nextEnvelope bs).rest := by
  rw [nextEnvelope]
  split
  · exact ⟨rfl, rfl⟩
  · rename_i hne
    obtain ⟨msg, hmsg, hempty⟩ := h.resolve_left fun hnil => hne (List.isEmpty_iff.mpr hnil)
    rw [hmsg]
    dsimp only
    rw [if_pos hempty]
    exact ⟨rfl, rfl⟩

/-- A batch that calls for a message is answered. -/
theorem nextEnvelope_sends {b : PoppedBatch} (bs : List PoppedBatch) {msg : Message}
    (hne : b.pop.tasks ≠ []) (hmsg : batchMessage b.found b.pop = some msg)
    (hfull : msg.empty = false) :
    nextEnvelope (b :: bs) = ⟨[], some ⟨b.pop.peer, msg, b.pop.tasks⟩, bs⟩ := by
  rw [nextEnvelope, if_neg (by simpa using hne), hmsg]
  dsimp only
  rw [if_neg (Bool.eq_false_iff.mp hfull)]

/-- An envelope is the answer to one of the batches, popped for its peer. -/
theorem nextEnvelope_spec {env : Envelope} : ∀ {bs : List PoppedBatch},
    (nextEnvelope bs).envelope = some env →
      ∃ b ∈ bs, b.pop.peer = env.peer ∧ b.pop.tasks = env.tasks ∧
        batchMessage b.found b.pop = some env.message
  | [], h => by cases h
  | b :: bs, h => by
      have hlater (h' : (nextEnvelope bs).envelope = some env) :
          ∃ b' ∈ b :: bs, b'.pop.peer = env.peer ∧ b'.pop.tasks = env.tasks ∧
            batchMessage b'.found b'.pop = some env.message :=
        (nextEnvelope_spec h').imp fun b' hb' => ⟨List.mem_cons_of_mem b hb'.1, hb'.2⟩
      rw [nextEnvelope] at h
      split at h
      · exact hlater h
      · split at h
        · cases h
        · rename_i msg hmsg
          split at h
          · exact hlater h
          · cases h
            exact ⟨b, List.mem_cons_self, rfl, rfl, hmsg⟩

theorem AuthedBlockstore.envelope_spec {bs : AuthedBlockstore} {env : Envelope} {pops : List Pop}
    (h : bs.envelope pops = some env) : ∃ pop ∈ pops, pop.peer = env.peer ∧
      batchMessage (bs.lookups pop.peer) pop = some env.message := by
  obtain ⟨b, hb, hpeer, -, hmsg⟩ := nextEnvelope_spec h
  obtain ⟨pop, hpop, rfl⟩ := List.mem_map.mp hb
  exact ⟨pop, hpop, hpeer, hmsg⟩

theorem ofContent_get_cid {content : GoMap Cid Bytes} (c : Cid) (b : Block)
    (h : (Blockstore.ofContent content).get c = .ok b) :
    b.cid = c ∧ content.lookup c = some b.rawData := by
  unfold Blockstore.ofContent at h
  dsimp only at h
  split at h
  · rename_i d hd
    obtain rfl : (⟨c, d⟩ : Block) = b := by simpa using h
    exact ⟨rfl, hd⟩
  · exact absurd h (by simp)

/-- **Authorisation safety of the serving path.**  Whatever is stored, whatever
`allow` is, and whatever batches of tasks are popped: a block that stands in the
envelope under a want is the block stored for the want's CID, with its data, and
`allow` accepts it for the envelope's peer and the want's auth string. -/
theorem nextEnvelope_authorised (bs : AuthedBlockstore)
    (hsrc : ∀ c b, bs.source.get c = .ok b → b.cid = c) (pops : List Pop) (env : Envelope)
    (henv : bs.envelope pops = some env) (w : Want) (ab : AuthBlock)
    (hab : env.message.blocks.lookup w = some ab) :
    ab.want = w ∧ bs.source.get w.cid = .ok ab.block ∧
      env.message.rawData.lookup w = some ab.block.rawData ∧
      bs.allow w.cid ab.block.rawData env.peer w.auth = true ∧
      ∃ pop ∈ pops, pop.peer = env.peer ∧ ∃ t ∈ pop.tasks, t.topic = w := by
  obtain ⟨pop, hpop, hpeer, hmsg⟩ := envelope_spec henv
  have hans := batchMessage_spec (cid_of_lookups hsrc pop.peer) hmsg
  obtain ⟨⟨t, ht, htopic, -⟩, b, hget, rfl⟩ := (hans.block w ab).mp hab
  obtain ⟨-, hstored, hallow⟩ := get_eq_ok.mp hget
  refine ⟨?_, hstored, hans.data w _ hab, hpeer ▸ hallow, pop, hpop, hpeer, t, ht, htopic⟩
  show (⟨b.cid, w.auth⟩ : Want) = w
  rw [hsrc _ _ hstored]

/-- Two wants for one block, of which the peer may have the one: only that one
is answered with the block. -/
theorem nextEnvelope_authorised_two_auths :
    let w : Want := ⟨⟨[1]⟩, [65]⟩
    let w' : Want := ⟨⟨[1]⟩, [66]⟩
    let bs : AuthedBlockstore :=
      ⟨.ofContent ((∅ : GoMap Cid Bytes).insert ⟨[1]⟩ [10, 20]),
        fun _ _ p a => p = ⟨[7]⟩ ∧ a = [65]⟩
    let pop : Pop :=
      ⟨⟨[7]⟩, [⟨w, 1, 2, ⟨2, true, true, true⟩⟩, ⟨w', 1, 2, ⟨2, true, true, true⟩⟩], 0,
      .complete .stored, .stored⟩
    ∃ env ab, bs.envelope [pop] = some env ∧ env.message.blocks.lookup w = some ab ∧
      env.message.blocks.lookup w' = none ∧
      bs.allow w.cid ab.block.rawData env.peer w.auth = true := by
  intro w w' bs pop
  have hsrc : ∀ c b, bs.source.get c = .ok b → b.cid = c := fun c b h => (ofContent_get_cid c b h).1
  have hbuilt : (bs.envelope [pop]).any (fun env =>
      (env.message.blocks.lookup w).isSome && (env.message.blocks.lookup w').isNone) = true := by
    decide
  obtain ⟨env, henv, hblocks⟩ := (Option.any_eq_true _ _).mp hbuilt
  obtain ⟨hw, hw'⟩ := Bool.and_eq_true_iff.mp hblocks
  obtain ⟨ab, hab⟩ := Option.isSome_iff_exists.mp hw
  have hallow := (nextEnvelope_authorised bs hsrc [pop] env henv w ab hab).2.2.2.1
  exact ⟨env, ab, henv, hab, Option.isNone_iff_eq_none.mp hw', hallow⟩

/-! ## `HAVE` and the block -/

namespace Engine

/-- The tasks pushed for a peer. -/
def tasksFor (p : PeerID) (ops : List QueueOp) : List Task :=
  ops.flatMap fun
    | .pushTasks q tasks => if q = p then tasks else []
    | .remove _ _ => []

/-- The choices made while a message is processed: the order of its entries, the
two schedules of the worker pool, the queue's figure for pending bytes and the
order of the block tasks. -/
structure Choices where
  entries : RangeOrder
  sizes : Schedule
  pendingBytes : Int
  blocks : Schedule
  order : RangeOrder

/-- No job of either call is refused. -/
def Choices.Complete (ch : Choices) : Prop := ch.sizes.refused = none ∧ ch.blocks.refused = none

/-- A message processed to its answer: the tasks it puts on the queue are popped
as one batch. -/
def respond (e : Engine) (p : PeerID) (m : Message) (ch : Choices) : Option Envelope :=
  e.bs.envelope
    [⟨p, tasksFor p (e.messageReceived p m ch.entries ch.sizes).2, ch.pendingBytes, ch.blocks,
      ch.order⟩]

theorem tasksFor_foldl_cancelEntry {p q : PeerID} : ∀ (cs : List Message.Entry)
    (s : Ledger × List QueueOp), tasksFor p (cs.foldl (cancelEntry q) s).2 = tasksFor p s.2
  | [], _ => rfl
  | c :: cs, s => by
      rw [List.foldl_cons, tasksFor_foldl_cancelEntry cs]
      unfold cancelEntry tasksFor
      dsimp only
      split <;> simp

/-- The tasks of a message that was read are those of its wants. -/
theorem tasksFor_messageReceived {e : Engine} {p : PeerID} {m : Message} {o : RangeOrder}
    {s : Schedule} {r : Received} (h : e.readMessage p m o s = some r) (hp : r.peer = p) :
    tasksFor p (e.messageReceived p m o s).2 = r.wants.filterMap (e.wantTask r.blockSizes) := by
  have htask : (e.indexMessage r).wantTask r.blockSizes = e.wantTask r.blockSizes := rfl
  have hpush : ∀ as : List Task,
      tasksFor p (if as.isEmpty then [] else [.pushTasks r.peer as]) = as := by
    intro as
    cases as with
    | nil => rfl
    | cons a as => simp [tasksFor, hp]
  have happend : ∀ xs ys, tasksFor p (xs ++ ys) = tasksFor p xs ++ tasksFor p ys :=
    fun xs ys => List.flatMap_append
  simp only [messageReceived, h, ledgerMessage, htask, happend, tasksFor_foldl_cancelEntry, hpush]
  rfl

theorem mem_tasksFor_messageReceived {e : Engine} {p : PeerID} {m : Message} {o : RangeOrder}
    {s : Schedule} {r : Received} (h : e.readMessage p m o s = some r) (hp : r.peer = p)
    {t : Task} :
    t ∈ tasksFor p (e.messageReceived p m o s).2 ↔
      ∃ et ∈ r.wants, e.wantTask r.blockSizes et = some t := by
  rw [tasksFor_messageReceived h hp]
  exact List.mem_filterMap

theorem topic_wantTask {e : Engine} {sizes : GoMap Want Nat} {et : Message.Entry} {t : Task}
    (h : e.wantTask sizes et = some t) : t.topic = et.want := by
  rw [wantTask] at h
  split at h
  · split at h
    · obtain rfl := Option.some.inj h
      rfl
    · exact absurd h (by simp)
  · obtain rfl := Option.some.inj h
    rfl

/-- What is read from a message: its wants, and the sizes of their blocks. -/
theorem readMessage_spec {e : Engine} {p : PeerID} {m : Message} {o : RangeOrder} {s : Schedule}
    {r : Received} (h : e.readMessage p m o s = some r) :
    r.peer = p ∧
    (∀ et, et ∈ r.wants ↔ m.wantlist.lookup et.want = some et ∧ et.cancel = false) ∧
    (∀ et, et ∈ r.cancels ↔ m.wantlist.lookup et.want = some et ∧ et.cancel = true) ∧
    (∀ w n, r.blockSizes.lookup w = some n ↔
      (∃ et ∈ r.wants, et.want = w) ∧ e.bs.getSize w.cid = .ok n) := by
  unfold readMessage at h
  dsimp only at h
  split at h
  · exact absurd h (by simp)
  · rename_i sizes hsizes
    obtain rfl := Option.some.inj h
    refine ⟨rfl, fun et => ?_, fun et => ?_, fun w n => ?_⟩
    · simp [splitWantsCancels, Message.mem_wantlistEntries]
    · simp [splitWantsCancels, Message.mem_wantlistEntries]
    · rw [lookup_getBlockSizes hsizes, List.mem_map]

theorem readMessage_complete (e : Engine) (p : PeerID) (m : Message) (o : RangeOrder) {s : Schedule}
    (h : s.refused = none) : ∃ r, e.readMessage p m o s = some r := by
  have hok : ∀ ws, (getBlockSizes e.bs s ws).2 = false := fun _ => jobs_complete h
  rw [readMessage]
  split
  · rename_i hs
    exact absurd (congrArg Prod.snd hs) (by rw [hok]; simp)
  · exact ⟨_, rfl⟩

theorem batchMessage_complete (found : Want → Except StoreErr Block) (pop : Pop)
    (h : pop.schedule.refused = none) : ∃ msg, batchMessage found pop = some msg := by
  have hok : ∀ ws, (getBlocks found pop.schedule ws).2 = false := fun _ => jobs_complete h
  rw [batchMessage]
  split
  · rename_i hs
    exact absurd (congrArg Prod.snd hs) (by rw [hok]; simp)
  · exact ⟨_, rfl⟩

section Content

variable {content : GoMap Cid Bytes} {allow : Cid → Bytes → PeerID → Bytes → Bool}

theorem authed_get_ofContent {c : Cid} {data : Bytes} (hc : content.lookup c = some data)
    (p : PeerID) (a : Bytes) (b : Block) :
    (AuthedBlockstore.mk (.ofContent content) allow).get c p a = .ok b ↔
      b = ⟨c, data⟩ ∧ allow c data p a = true := by
  have hmem : c ∈ content := GoMap.mem_of_lookup hc
  rw [get_eq_ok]
  simp only [Blockstore.ofContent, hmem, decide_true, true_and, hc, Except.ok.injEq]
  constructor
  · rintro ⟨rfl, ha⟩; exact ⟨rfl, ha⟩
  · rintro ⟨rfl, ha⟩; exact ⟨rfl, ha⟩

/-- A `HAVE` is given only for a block that is stored. -/
theorem stored_of_have {e : Engine} (hbs : e.bs = ⟨.ofContent content, allow⟩) {p : PeerID}
    {w : Want} {m : Message} {ch : Choices} {env : Envelope} (henv : e.respond p m ch = some env)
    (hhave : env.message.blockPresences.lookup w = some .HAVE) :
    ∃ data, content.lookup w.cid = some data := by
  have hsrc : ∀ c b, e.bs.source.get c = .ok b → b.cid = c := fun c b h =>
    (ofContent_get_cid c b (by rw [hbs] at h; exact h)).1
  obtain ⟨pop, hpop, -, hmsg⟩ := envelope_spec henv
  obtain rfl := List.mem_singleton.mp hpop
  obtain ⟨t, ht, htopic, hhb⟩ :=
    (batchMessage_spec (cid_of_lookups hsrc p) hmsg).haves w hhave
  cases hr : e.readMessage p m ch.entries ch.sizes with
  | none =>
      simp only [messageReceived, hr] at ht
      simp [tasksFor] at ht
  | some r =>
      obtain ⟨hpeer, hwants, -, hsizes⟩ := readMessage_spec hr
      obtain ⟨et, het, hwt⟩ := (mem_tasksFor_messageReceived hr hpeer).mp ht
      unfold wantTask at hwt
      split at hwt
      · -- a task for a missing block is a `DONT_HAVE` task
        split at hwt
        · obtain rfl := Option.some.inj hwt
          exact absurd hhb (by simp)
        · exact absurd hwt (by simp)
      · rename_i n hn
        obtain rfl := Option.some.inj hwt
        obtain ⟨-, hsize⟩ := (hsizes _ n).mp hn
        have hw : et.want = w := htopic
        rw [hw, hbs] at hsize
        simp only [AuthedBlockstore.getSize, Blockstore.ofContent] at hsize
        split at hsize
        · exact ⟨_, ‹_›⟩
        · exact absurd hsize (by simp)

theorem asksBlock_of_wantBlock {e : Engine} (hbs : e.bs = ⟨.ofContent content, allow⟩) (p : PeerID)
    {w : Want} {m : Message} (o : RangeOrder) {s : Schedule} (hs : s.refused = none)
    {et : Message.Entry} (het : m.wantlist.lookup w = some et) (hty : et.wantType = .wantBlock)
    (hcan : et.cancel = false) {data : Bytes} (hdata : content.lookup w.cid = some data) :
    ∃ t ∈ tasksFor p (e.messageReceived p m o s).2, t.topic = w ∧ t.AsksBlock := by
  obtain ⟨r, hr⟩ := readMessage_complete e p m o hs
  obtain ⟨hpeer, hwants, -, hsizes⟩ := readMessage_spec hr
  have hw : et.want = w := m.keyed w et het
  have hin : et ∈ r.wants := (hwants et).mpr ⟨hw ▸ het, hcan⟩
  have hsize : r.blockSizes.lookup et.want = some data.length := by
    refine (hsizes _ _).mpr ⟨⟨et, hin, rfl⟩, ?_⟩
    rw [hbs, hw]
    simp [AuthedBlockstore.getSize, Blockstore.ofContent, hdata]
  refine ⟨e.foundTask et.want et.priority et.wantType data.length et.sendDontHave,
    (mem_tasksFor_messageReceived hr hpeer).mpr ⟨et, hin, ?_⟩, hw, rfl, ?_⟩
  · simp only [wantTask, hsize]
  · simp [foundTask, sendAsBlock, hty]

/-- **A `HAVE` promises the block to whom it may be released.**  If a peer's
want-have for a want is answered with `HAVE`, then the block is stored, and its
want-block is answered with that block if and only if `allow` accepts the block
for the peer and the auth string. -/
theorem block_after_have_iff (e₁ e₂ : Engine) (h₁ : e₁.bs = ⟨.ofContent content, allow⟩)
    (h₂ : e₂.bs = ⟨.ofContent content, allow⟩) (p : PeerID) (w : Want) (m₁ m₂ : Message)
    (ch₁ ch₂ : Choices) (hch : ch₂.Complete) (et : Message.Entry)
    (het : m₂.wantlist.lookup w = some et) (hty : et.wantType = .wantBlock)
    (hcan : et.cancel = false) (env₁ : Envelope) (henv : e₁.respond p m₁ ch₁ = some env₁)
    (hhave : env₁.message.blockPresences.lookup w = some .HAVE) :
    ∃ data, content.lookup w.cid = some data ∧
      ((∃ env₂, e₂.respond p m₂ ch₂ = some env₂ ∧ env₂.peer = p ∧
          env₂.message.blocks.lookup w = some (AuthBlock.new ⟨w.cid, data⟩ w.auth)) ↔
        allow w.cid data p w.auth = true) := by
  obtain ⟨data, hdata⟩ := stored_of_have h₁ henv hhave
  refine ⟨data, hdata, ?_⟩
  have hsrc : ∀ c b, e₂.bs.source.get c = .ok b → b.cid = c := fun c b h =>
    (ofContent_get_cid c b (by rw [h₂] at h; exact h)).1
  have hfound := cid_of_lookups hsrc p
  have hget : ∀ b, e₂.bs.get w.cid p w.auth = .ok b ↔
      b = ⟨w.cid, data⟩ ∧ allow w.cid data p w.auth = true :=
    fun b => by rw [h₂]; exact authed_get_ofContent hdata p w.auth b
  constructor
  · rintro ⟨env₂, henv₂, -, hblk⟩
    obtain ⟨pop, hpop, -, hmsg⟩ := envelope_spec henv₂
    obtain rfl := List.mem_singleton.mp hpop
    obtain ⟨-, b, hb, -⟩ := ((batchMessage_spec hfound hmsg).block w _).mp hblk
    exact ((hget b).mp hb).2
  · intro hallow
    obtain ⟨t, ht, htopic, hask⟩ := asksBlock_of_wantBlock h₂ p ch₂.entries hch.1 het hty hcan hdata
    obtain ⟨msg, hmsg⟩ := batchMessage_complete (e₂.bs.lookups p)
      ⟨p, _, ch₂.pendingBytes, ch₂.blocks, ch₂.order⟩ hch.2
    have hblk : msg.blocks.lookup w = some (AuthBlock.new ⟨w.cid, data⟩ w.auth) :=
      ((batchMessage_spec hfound hmsg).block w _).mpr
        ⟨⟨t, ht, htopic, hask⟩, ⟨w.cid, data⟩, (hget _).mpr ⟨rfl, hallow⟩, rfl⟩
    have hlen : msg.blocks.len ≠ 0 := GoMap.len_ne_zero.mpr ⟨w, GoMap.mem_of_lookup hblk⟩
    have hfull : msg.empty = false := by simp [Message.empty, hlen]
    have hsent := nextEnvelope_sends (b := e₂.bs.batch _) [] (List.ne_nil_of_mem ht) hmsg hfull
    exact ⟨_, congrArg Popped.envelope hsent, rfl, hblk⟩

end Content

/-- A message that asks for one want. -/
def askFor (w : Want) (t : WantType) : Message := ((Message.new false).addEntry w 1 t true).1

/-- Choices that leave every order as it is stored. -/
def plainChoices : Choices := ⟨.stored, .complete .stored, 0, .complete .stored, .stored⟩

/-- With a stored block that is released, the peer that was told `HAVE` gets the
block. -/
theorem block_after_have_released :
    let w : Want := ⟨⟨[1]⟩, [65]⟩
    let data : Bytes := List.replicate 1025 0
    let e : Engine :=
      .new ⟨.ofContent ((∅ : GoMap Cid Bytes).insert ⟨[1]⟩ data), fun _ _ _ a => a = [65]⟩
    ∃ env, e.respond ⟨[7]⟩ (askFor w .wantBlock) plainChoices = some env ∧
      env.message.blocks.lookup w = some (AuthBlock.new ⟨w.cid, data⟩ w.auth) := by
  intro w data e
  have hhave : (e.respond ⟨[7]⟩ (askFor w .wantHave) plainChoices).map
      (fun env => env.message.blockPresences.lookup w) = some (some .HAVE) := by decide +kernel
  obtain ⟨env₁, henv, hh⟩ := Option.map_eq_some_iff.mp hhave
  obtain ⟨data', hdata, hiff⟩ := block_after_have_iff e e rfl rfl ⟨[7]⟩ w (askFor w .wantHave)
    (askFor w .wantBlock) plainChoices plainChoices ⟨rfl, rfl⟩ _ rfl rfl rfl env₁ henv hh
  obtain rfl : data = data' := by
    rw [AList.lookup_insert] at hdata
    exact Option.some.inj hdata
  obtain ⟨env₂, henv₂, -, hblk⟩ := hiff.mpr rfl
  exact ⟨env₂, henv₂, hblk⟩

/-- With a stored block that is not released, a want-have is answered with
`HAVE` and a want-block with `DONT_HAVE`. -/
theorem have_without_block :
    let w : Want := ⟨⟨[1]⟩, [65]⟩
    let data : Bytes := List.replicate 1025 0
    let e : Engine :=
      .new ⟨.ofContent ((∅ : GoMap Cid Bytes).insert ⟨[1]⟩ data), fun _ _ _ _ => false⟩
    (e.respond ⟨[7]⟩ (askFor w .wantHave) plainChoices).map
        (fun env => env.message.blockPresences.lookup w) = some (some .HAVE) ∧
    (e.respond ⟨[7]⟩ (askFor w .wantBlock) plainChoices).map
        (fun env => (env.message.blocks.lookup w, env.message.blockPresences.lookup w)) =
      some (none, some .DONT_HAVE) := by
  decide +kernel

end Engine

end BitswapAuth
