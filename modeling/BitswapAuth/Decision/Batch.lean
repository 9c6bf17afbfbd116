/-
# `BitswapAuth.Decision.Batch` — one batch of tasks, answered in full

`nextEnvelope` fills the message for a batch of tasks in two passes.  The first
goes over the tasks and answers those that need no block; between the passes the
blocks are looked up, one job for each want; the second goes over the block tasks
in any order, and a block that was not found is answered or passed over.

    HaveBlock  IsWantBlock  the lookup   in the message
    no                                   DONT_HAVE
    yes        no                        HAVE
    yes        yes          succeeds     the block
    yes        yes          fails        DONT_HAVE, if SendDontHave is set

The blockstore may change between two jobs, so what becomes of each lookup is given from outside;
a blockstore that stays as it is gives one such family of outcomes.
-/
import BitswapAuth.Decision.Serving
import BitswapAuth.Lib.Run

namespace BitswapAuth

open Lib

/-! ## What a message shows of a want -/

namespace Message

/-- The block and the block presence a message has for a want. -/
def shown (m : Message) (w : Want) : Option AuthBlock × Option BlockPresenceType :=
  (m.blocks.lookup w, m.blockPresences.lookup w)

theorem shown_addBlockPresence_of_ne {m : Message} {w k : Want} (t : BlockPresenceType)
    (h : w ≠ k) : (m.addBlockPresence w t).shown k = m.shown k := by
  rw [shown, blocks_addBlockPresence, lookup_addBlockPresence, if_neg fun hk => h hk.1.symm]
  rfl

theorem shown_addBlockPresence {m : Message} {w : Want} (t : BlockPresenceType)
    (h : m.shown w = (none, none)) : (m.addBlockPresence w t).shown w = (none, some t) := by
  have hblocks : m.blocks.lookup w = none := congrArg Prod.fst h
  have hnew : w ∉ m.blocks := AList.lookup_eq_none.mp hblocks
  rw [shown, blocks_addBlockPresence, lookup_addBlockPresence, if_pos ⟨rfl, hnew⟩, hblocks]

theorem shown_addBlock_of_ne {m : Message} {b : Block} {a : Bytes} {k : Want}
    (h : (⟨b.cid, a⟩ : Want) ≠ k) : (m.addBlock b a).shown k = m.shown k := by
  rw [shown, lookup_blocks_addBlock, lookup_presences_addBlock, if_neg h.symm, if_neg h.symm]
  rfl

theorem shown_addBlock {m : Message} {b : Block} {a : Bytes} :
    (m.addBlock b a).shown ⟨b.cid, a⟩ = (some (AuthBlock.new b a), none) := by
  rw [shown, lookup_blocks_addBlock, lookup_presences_addBlock, if_pos rfl, if_pos rfl]

theorem shown_of_empty {m : Message} (h : m.empty = true) (w : Want) :
    m.shown w = (none, none) := by
  simp only [empty, Bool.and_eq_true, beq_iff_eq] at h
  have hb := AList.lookup_eq_none.mpr (GoMap.len_eq_zero.mp h.1.1 w)
  have hp := AList.lookup_eq_none.mpr (GoMap.len_eq_zero.mp h.2 w)
  rw [shown, hb, hp]

end Message

/-! ## The answer to a task -/

/-- What a task comes to: the block or, if it was not found, a `DONT_HAVE` for who asked to
be told. -/
def Task.outcome (found : Want → Except StoreErr Block) (t : Task) :
    Option AuthBlock × Option BlockPresenceType :=
  if t.data.haveBlock then
    if t.data.isWantBlock then
      match found t.topic with
      | .ok b => (some (AuthBlock.new b t.topic.auth), none)
      | .error _ => (none, if t.data.sendDontHave then some .DONT_HAVE else none)
    else (none, some .HAVE)
  else (none, some .DONT_HAVE)

theorem Task.outcome_cases (found : Want → Except StoreErr Block) (t : Task) :
    (t.data.haveBlock = false ∧ t.outcome found = (none, some .DONT_HAVE)) ∨
      (t.data.haveBlock = true ∧ t.data.isWantBlock = false ∧
        t.outcome found = (none, some .HAVE)) ∨
      (t.data.haveBlock = true ∧ t.data.isWantBlock = true ∧ ∃ b, found t.topic = .ok b ∧
        t.outcome found = (some (AuthBlock.new b t.topic.auth), none)) ∨
      (t.data.haveBlock = true ∧ t.data.isWantBlock = true ∧ ∃ err, found t.topic = .error err ∧
        t.outcome found = (none, if t.data.sendDontHave then some .DONT_HAVE else none)) := by
  rw [outcome]
  cases t.data.haveBlock with
  | false => simp
  | true =>
      cases t.data.isWantBlock with
      | false => simp
      | true =>
          cases found t.topic with
          | error err => simp
          | ok b => simp

theorem Task.outcome_congr {found found' : Want → Except StoreErr Block} {t : Task}
    (h : found t.topic = found' t.topic) : t.outcome found = t.outcome found' := by
  rw [Task.outcome, Task.outcome, h]

theorem Task.outcome_refused {found : Want → Except StoreErr Block} {t : Task} {err : StoreErr}
    (hask : t.AsksBlock) (h : found t.topic = .error err) :
    t.outcome found = (none, if t.data.sendDontHave then some .DONT_HAVE else none) := by
  rw [Task.outcome, if_pos hask.1, if_pos hask.2, h]

theorem Task.outcome_block (found : Want → Except StoreErr Block) (t : Task) (ab : AuthBlock) :
    (t.outcome found).1 = some ab ↔ (t.data.haveBlock = true ∧ t.data.isWantBlock = true) ∧
      ∃ b, found t.topic = .ok b ∧ ab = AuthBlock.new b t.topic.auth := by
  rcases t.outcome_cases found with ⟨hh, ho⟩ | ⟨hh, hw, ho⟩ | ⟨hh, hw, b, hf, ho⟩ |
    ⟨hh, hw, err, hf, ho⟩
  · simp [ho, hh]
  · simp [ho, hw]
  · simp [ho, hh, hw, hf, eq_comm]
  · simp [ho, hf]

theorem Task.outcome_have (found : Want → Except StoreErr Block) (t : Task) :
    (t.outcome found).2 = some .HAVE ↔
      t.data.haveBlock = true ∧ t.data.isWantBlock = false := by
  rcases t.outcome_cases found with ⟨hh, ho⟩ | ⟨hh, hw, ho⟩ | ⟨-, hw, b, -, ho⟩ |
    ⟨-, hw, err, -, ho⟩
  · simp [ho, hh]
  · simp [ho, hh, hw]
  · simp [ho, hw]
  · simp [ho, hw]

theorem Task.outcome_dontHave (found : Want → Except StoreErr Block) (t : Task) :
    (t.outcome found).2 = some .DONT_HAVE ↔
      t.data.haveBlock = false ∨ ((t.data.haveBlock = true ∧ t.data.isWantBlock = true) ∧
        (∃ err, found t.topic = .error err) ∧ t.data.sendDontHave = true) := by
  rcases t.outcome_cases found with ⟨hh, ho⟩ | ⟨hh, hw, ho⟩ | ⟨hh, hw, b, hf, ho⟩ |
    ⟨hh, hw, err, hf, ho⟩
  · simp [ho, hh]
  · simp [ho, hh, hw]
  · simp [ho, hh, hf]
  · simp [ho, hh, hw, hf]

/-- A task comes to a block or to a presence, not to both. -/
theorem Task.outcome_once (found : Want → Except StoreErr Block) (t : Task)
    (hb : ∃ ab, (t.outcome found).1 = some ab) (hp : ∃ bp, (t.outcome found).2 = some bp) :
    False := by
  obtain ⟨ab, hab⟩ := hb
  obtain ⟨bp, hbp⟩ := hp
  rcases t.outcome_cases found with ⟨-, ho⟩ | ⟨-, -, ho⟩ | ⟨-, -, b, -, ho⟩ |
    ⟨-, -, err, -, ho⟩
  · rw [ho] at hab; cases hab
  · rw [ho] at hab; cases hab
  · rw [ho] at hbp; cases hbp
  · rw [ho] at hab; cases hab

/-- What the splitting loop has for a want. -/
def SplitTasks.at (s : SplitTasks) (w : Want) :
    Option TaskData × Option AuthBlock × Option BlockPresenceType :=
  (s.blockTasks.lookup w, s.msg.shown w)

theorem splitTask_elsewhere (s : SplitTasks) {t : Task} {w : Want} (h : t.topic ≠ w) :
    (splitTask s t).at w = s.at w := by
  rw [splitTask]
  split
  · split
    · rw [SplitTasks.at, AList.lookup_insert_ne h.symm]
      rfl
    · exact congrArg (Prod.mk _) (Message.shown_addBlockPresence_of_ne _ h)
  · exact congrArg (Prod.mk _) (Message.shown_addBlockPresence_of_ne _ h)

/-- The round of a task whose want is new: a task for the block is kept, the others are
answered. -/
theorem splitTask_own {s : SplitTasks} {t : Task} (h : s.at t.topic = (none, none, none)) :
    (t.AsksBlock ∧ (splitTask s t).at t.topic = (some t.data, none, none)) ∨
      ¬ t.AsksBlock ∧ ∀ found, (splitTask s t).at t.topic = (none, t.outcome found) := by
  have htask : s.blockTasks.lookup t.topic = none := congrArg Prod.fst h
  have hmsg : s.msg.shown t.topic = (none, none) := congrArg Prod.snd h
  rw [splitTask]
  cases hh : t.data.haveBlock with
  | false =>
      refine .inr ⟨fun hask => Bool.false_ne_true (hh.symm.trans hask.1), fun found => ?_⟩
      rw [Task.outcome, hh]
      exact congrArg₂ Prod.mk htask (Message.shown_addBlockPresence _ hmsg)
  | true =>
      cases hb : t.data.isWantBlock with
      | false =>
          refine .inr ⟨fun hask => Bool.false_ne_true (hb.symm.trans hask.2), fun found => ?_⟩
          rw [Task.outcome, hh, hb]
          exact congrArg₂ Prod.mk htask (Message.shown_addBlockPresence _ hmsg)
      | true =>
          refine .inl ⟨⟨hh, hb⟩, ?_⟩
          exact congrArg₂ Prod.mk (AList.lookup_insert _) hmsg

/-- The splitting loop over tasks with different wants, seen at the want of one of them. -/
theorem foldl_splitTask_own {tasks : List Task} (hnd : (tasks.map Task.topic).Nodup)
    {s : SplitTasks} (hs : ∀ w, s.at w = (none, none, none)) {t : Task} (ht : t ∈ tasks) :
    (t.AsksBlock ∧ (tasks.foldl splitTask s).at t.topic = (some t.data, none, none)) ∨
      ¬ t.AsksBlock ∧ ∀ found, (tasks.foldl splitTask s).at t.topic = (none, t.outcome found) := by
  obtain ⟨s', hs', hfold⟩ := foldl_own (SplitTasks.at · t.topic) Task.topic hnd ht
    (fun s b hb => splitTask_elsewhere s hb) s
  rw [hfold]
  exact splitTask_own (hs'.trans (hs t.topic))

section Fetched

variable {blks : GoMap Want Block} (hcid : ∀ w b, blks.lookup w = some b → b.cid = w.cid)

include hcid

theorem addFetched_elsewhere (msg : Message) (t : Want × TaskData) {w : Want} (h : t.1 ≠ w) :
    (addFetched blks msg t).shown w = msg.shown w := by
  rw [addFetched]
  cases hb : blks.lookup t.1 with
  | none =>
      dsimp only
      split
      · exact Message.shown_addBlockPresence_of_ne _ h
      · rfl
  | some b =>
      refine Message.shown_addBlock_of_ne ?_
      rw [hcid t.1 b hb]
      exact h

theorem addFetched_own {msg : Message} {w : Want} {td : TaskData}
    (h : msg.shown w = (none, none)) :
    (addFetched blks msg (w, td)).shown w =
      match blks.lookup w with
      | some b => (some (AuthBlock.new b w.auth), none)
      | none => (none, if td.sendDontHave then some .DONT_HAVE else none) := by
  rw [addFetched]
  cases hb : blks.lookup w with
  | none =>
      dsimp only
      split
      · exact Message.shown_addBlockPresence _ h
      · exact h
  | some b =>
      have hkey : (⟨b.cid, w.auth⟩ : Want) = w := by rw [hcid w b hb]
      have hadd := Message.shown_addBlock (m := msg) (b := b) (a := w.auth)
      rw [hkey] at hadd
      exact hadd

variable (o : RangeOrder) {tasks : GoMap Want TaskData} {msg : Message} {w : Want}

theorem foldl_addFetched_elsewhere (h : tasks.lookup w = none) :
    ((o.range tasks.pairs).foldl (addFetched blks) msg).shown w = msg.shown w := by
  refine foldl_elsewhere (Message.shown · w) Prod.fst
    (fun m t ht => addFetched_elsewhere hcid m t ht) _ _ ?_
  rw [((o.range_perm tasks.pairs).map Prod.fst).mem_iff, GoMap.map_fst_pairs, ← AList.mem_keys]
  exact AList.lookup_eq_none.mp h

/-- The range over the block tasks gives a want its block, or the word that there is none. -/
theorem foldl_addFetched_own {td : TaskData} (h : tasks.lookup w = some td)
    (hmsg : msg.shown w = (none, none)) :
    ((o.range tasks.pairs).foldl (addFetched blks) msg).shown w =
      match blks.lookup w with
      | some b => (some (AuthBlock.new b w.auth), none)
      | none => (none, if td.sendDontHave then some .DONT_HAVE else none) := by
  have hmem : (w, td) ∈ o.range tasks.pairs := RangeOrder.mem_range.mpr (GoMap.mem_pairs.mpr h)
  have hnd : ((o.range tasks.pairs).map Prod.fst).Nodup := by
    rw [((o.range_perm tasks.pairs).map Prod.fst).nodup_iff, GoMap.map_fst_pairs]
    exact tasks.keys_nodup
  obtain ⟨m, hm, hfold⟩ := foldl_own (Message.shown · w) Prod.fst hnd hmem
    (fun m t ht => addFetched_elsewhere hcid m t ht) msg
  exact hfold.trans (addFetched_own hcid (hm.trans hmsg))

end Fetched

/-- **One batch, in full.**  If no two tasks have the same want, the message shows of
every want the answer to its task, and nothing of the others. -/
theorem batchMessage_shown {found : Want → Except StoreErr Block} {pop : Pop} {msg : Message}
    (hcid : ∀ w b, found w = .ok b → b.cid = w.cid)
    (hmsg : batchMessage found pop = some msg) (hnd : (pop.tasks.map Task.topic).Nodup) :
    (∀ t ∈ pop.tasks, msg.shown t.topic = t.outcome found) ∧
      ∀ w, w ∉ pop.tasks.map Task.topic → msg.shown w = (none, none) := by
  rw [batchMessage] at hmsg
  set s₀ : SplitTasks :=
    ⟨(Message.new false).setPendingBytes (Int32.ofInt pop.pendingBytes), [], ∅⟩
  have hs := foldl_splitTask_spec pop.tasks s₀
  have helse : ∀ w, w ∉ pop.tasks.map Task.topic →
      (pop.tasks.foldl splitTask s₀).at w = (none, none, none) :=
    fun w hw => foldl_elsewhere (SplitTasks.at · w) Task.topic
      (fun s t ht => splitTask_elsewhere s ht) pop.tasks s₀ hw
  split at hmsg
  · exact absurd hmsg (by simp)
  · rename_i blks hblks
    obtain rfl := Option.some.inj hmsg
    have hget := @lookup_getBlocks _ _ _ _ hblks
    have hblk : ∀ w b, blks.lookup w = some b → b.cid = w.cid :=
      fun w b hb => hcid w b (hget.mp hb).2
    constructor
    · intro t ht
      rcases foldl_splitTask_own (s := s₀) hnd (fun _ => rfl) ht with ⟨hask, hat⟩ | ⟨-, hat⟩
      · have hwant := (hs.blockWants t.topic).mpr (.inr ⟨t, ht, rfl, hask⟩)
        rw [foldl_addFetched_own hblk _ (congrArg Prod.fst hat) (congrArg Prod.snd hat),
          Task.outcome, if_pos hask.1, if_pos hask.2]
        cases hf : found t.topic with
        | ok b => rw [hget.mpr ⟨hwant, hf⟩]
        | error err =>
            have hno : blks.lookup t.topic = none := by
              refine Option.eq_none_iff_forall_ne_some.mpr fun b hb => ?_
              have hok := (hget.mp hb).2
              rw [hf] at hok
              cases hok
            rw [hno]
      · have hdone := hat found
        rw [foldl_addFetched_elsewhere hblk _ (congrArg Prod.fst hdone)]
        exact congrArg Prod.snd hdone
    · intro w hw
      have hnone := helse w hw
      rw [foldl_addFetched_elsewhere hblk _ (congrArg Prod.fst hnone)]
      exact congrArg Prod.snd hnone

/-! ## The message asks for nothing -/

theorem wantlist_splitTask (s : SplitTasks) (t : Task) :
    (splitTask s t).msg.wantlist = s.msg.wantlist := by
  rw [splitTask]
  split
  · split
    · rfl
    · exact Message.wantlist_addBlockPresence ..
  · exact Message.wantlist_addBlockPresence ..

theorem wantlist_addFetched (blks : GoMap Want Block) (msg : Message) (t : Want × TaskData) :
    (addFetched blks msg t).wantlist = msg.wantlist := by
  rw [addFetched]
  split
  · split
    · exact Message.wantlist_addBlockPresence ..
    · rfl
  · rfl

theorem wantlist_batchMessage {found : Want → Except StoreErr Block} {pop : Pop} {msg : Message}
    (hmsg : batchMessage found pop = some msg) : msg.wantlist = ∅ := by
  rw [batchMessage] at hmsg
  split at hmsg
  · exact absurd hmsg (by simp)
  · obtain rfl := Option.some.inj hmsg
    rw [foldl_keeps (f := addFetched _) Message.wantlist fun m t => wantlist_addFetched _ m t,
      foldl_keeps (f := splitTask) (·.msg.wantlist) fun s t => wantlist_splitTask s t]
    rfl

/-! ## The batch -/

/-- The message answers every task of the batch, by the block, by HAVE or by DONT_HAVE, and
says nothing else. -/
structure AnswersAll (found : Want → Except StoreErr Block) (pop : Pop) (msg : Message) :
    Prop where
  block : ∀ t ∈ pop.tasks, ∀ ab, msg.blocks.lookup t.topic = some ab ↔
    (t.data.haveBlock = true ∧ t.data.isWantBlock = true) ∧
      ∃ b, found t.topic = .ok b ∧ ab = AuthBlock.new b t.topic.auth
  sendsHave : ∀ t ∈ pop.tasks, msg.blockPresences.lookup t.topic = some .HAVE ↔
    t.data.haveBlock = true ∧ t.data.isWantBlock = false
  sendsDontHave : ∀ t ∈ pop.tasks, msg.blockPresences.lookup t.topic = some .DONT_HAVE ↔
    t.data.haveBlock = false ∨ ((t.data.haveBlock = true ∧ t.data.isWantBlock = true) ∧
      (∃ err, found t.topic = .error err) ∧ t.data.sendDontHave = true)
  once : ∀ w ∈ msg.blocks, w ∉ msg.blockPresences
  outside : ∀ w, w ∉ pop.tasks.map Task.topic → w ∉ msg.blocks ∧ w ∉ msg.blockPresences
  asksNothing : ∀ w, w ∉ msg.wantlist

theorem answersAll {found : Want → Except StoreErr Block} {pop : Pop} {msg : Message}
    (hcid : ∀ w b, found w = .ok b → b.cid = w.cid)
    (hmsg : batchMessage found pop = some msg) (hnd : (pop.tasks.map Task.topic).Nodup) :
    AnswersAll found pop msg := by
  obtain ⟨hown, hout⟩ := batchMessage_shown hcid hmsg hnd
  have hblk : ∀ t ∈ pop.tasks, msg.blocks.lookup t.topic = (t.outcome found).1 :=
    fun t ht => congrArg Prod.fst (hown t ht)
  have hpres : ∀ t ∈ pop.tasks, msg.blockPresences.lookup t.topic = (t.outcome found).2 :=
    fun t ht => congrArg Prod.snd (hown t ht)
  have houtside : ∀ w, w ∉ pop.tasks.map Task.topic → w ∉ msg.blocks ∧ w ∉ msg.blockPresences :=
    fun w hw => ⟨AList.lookup_eq_none.mp (congrArg Prod.fst (hout w hw)),
      AList.lookup_eq_none.mp (congrArg Prod.snd (hout w hw))⟩
  refine ⟨fun t ht ab => ?_, fun t ht => ?_, fun t ht => ?_, fun w hw hw' => ?_, houtside,
    fun w => ?_⟩
  · rw [hblk t ht]
    exact t.outcome_block found ab
  · rw [hpres t ht]
    exact t.outcome_have found
  · rw [hpres t ht]
    exact t.outcome_dontHave found
  · by_cases hin : w ∈ pop.tasks.map Task.topic
    · obtain ⟨t, ht, rfl⟩ := List.mem_map.mp hin
      rw [GoMap.mem_iff_lookup, hblk t ht] at hw
      rw [GoMap.mem_iff_lookup, hpres t ht] at hw'
      exact t.outcome_once found hw hw'
    · exact (houtside w hin).1 hw
  · rw [wantlist_batchMessage hmsg]
    exact AList.notMem_empty w

/-- **A batch is answered completely and consistently**, whatever becomes of each lookup: the
message has for every task of the batch what the task calls for, and nothing else; if that is
nothing at all the tasks are done and the next batch is popped, and if not the message is
sent. -/
theorem nextEnvelope_answersAll (b : PoppedBatch) (bs : List PoppedBatch) (msg : Message)
    (hne : b.pop.tasks ≠ []) (hnd : (b.pop.tasks.map Task.topic).Nodup)
    (hcid : ∀ w blk, b.found w = .ok blk → blk.cid = w.cid)
    (hmsg : batchMessage b.found b.pop = some msg) :
    AnswersAll b.found b.pop msg ∧
      (msg.empty = true → (nextEnvelope (b :: bs)).done =
          (b.pop.peer, b.pop.tasks) :: (nextEnvelope bs).done ∧
        (nextEnvelope (b :: bs)).envelope = (nextEnvelope bs).envelope) ∧
      (msg.empty = false →
        nextEnvelope (b :: bs) = ⟨[], some ⟨b.pop.peer, msg, b.pop.tasks⟩, bs⟩) := by
  refine ⟨answersAll hcid hmsg hnd, fun hempty => ⟨?_, ?_⟩, nextEnvelope_sends bs hne hmsg⟩
  · rw [nextEnvelope, if_neg (by simpa using hne), hmsg]
    dsimp only
    rw [if_pos hempty]
  · exact (nextEnvelope_passes bs (.inr ⟨msg, hmsg, hempty⟩)).1

/-- Two wants for one block, of which the lookup of the one fails, and a want-have: one block,
one DONT_HAVE and one HAVE are sent. -/
theorem nextEnvelope_answersAll_two_auths :
    let w : Want := ⟨⟨[1]⟩, [65]⟩
    let w' : Want := ⟨⟨[1]⟩, [66]⟩
    let k : Want := ⟨⟨[2]⟩, []⟩
    let pop : Pop :=
      ⟨⟨[7]⟩, [⟨w, 1, 2, ⟨2, true, true, true⟩⟩, ⟨w', 1, 2, ⟨2, true, true, true⟩⟩,
        ⟨k, 1, 9, ⟨5000, true, false, false⟩⟩], 0, .complete .stored, .stored⟩
    let b : PoppedBatch :=
      ⟨pop, fun u => if u = w then .ok ⟨⟨[1]⟩, [10, 20]⟩ else .error .unauthorised⟩
    ∃ msg, AnswersAll b.found b.pop msg ∧ w ∈ msg.blocks ∧
      msg.blockPresences.lookup w' = some .DONT_HAVE ∧
      msg.blockPresences.lookup k = some .HAVE ∧
      nextEnvelope [b] = ⟨[], some ⟨⟨[7]⟩, msg, pop.tasks⟩, []⟩ := by
  intro w w' k pop b
  have hcid : ∀ u blk, b.found u = .ok blk → blk.cid = u.cid := by
    intro u blk h
    have h' : (if u = w then .ok ⟨⟨[1]⟩, [10, 20]⟩ else .error .unauthorised :
      Except StoreErr Block) = .ok blk := h
    split at h'
    · rename_i hu
      rw [hu, ← Except.ok.inj h']
    · cases h'
  obtain ⟨msg, hmsg⟩ : ∃ msg, batchMessage b.found b.pop = some msg := ⟨_, rfl⟩
  obtain ⟨hall, -, hsent⟩ := nextEnvelope_answersAll b [] msg (by decide) (by decide) hcid hmsg
  have hw' := (hall.sendsDontHave ⟨w', 1, 2, ⟨2, true, true, true⟩⟩ (by decide)).mpr
    (.inr ⟨⟨rfl, rfl⟩, ⟨_, rfl⟩, rfl⟩)
  have hw := (hall.block ⟨w, 1, 2, ⟨2, true, true, true⟩⟩ (by decide) _).mpr
    ⟨⟨rfl, rfl⟩, _, rfl, rfl⟩
  have hk := (hall.sendsHave ⟨k, 1, 9, ⟨5000, true, false, false⟩⟩ (by decide)).mpr ⟨rfl, rfl⟩
  refine ⟨msg, hall, GoMap.mem_of_lookup hw, hw', hk, hsent ?_⟩
  have hlen : msg.blocks.len ≠ 0 := GoMap.len_ne_zero.mpr ⟨w, GoMap.mem_of_lookup hw⟩
  simp [Message.empty, hlen]

end BitswapAuth
