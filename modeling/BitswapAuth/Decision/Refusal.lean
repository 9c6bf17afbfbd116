/-
# `BitswapAuth.Decision.Refusal` — a refused block looks like a missing one

A peer that asks for a block it may not have must not learn that the block is
there.  The two cases take different ways through the engine.  For a block that is
missing the task is made a `DONT_HAVE` when the message is read, if the entry has
the flag for it; for one that is stored the task is for the block, the block is
asked for when the task is popped, and the refusal is turned into a `DONT_HAVE`
only then, with the flag the task has carried.  The tasks are of different sizes,
so the queue may put them into different batches.

What the peer is shown is put down once, as a function of the entry and the
blockstore (`Engine.answer`): the envelopes of an exchange that is drained show
just the answers to the entries of the message (`shown_iff`), however the jobs are
scheduled and the tasks are batched.  Two blockstores that differ in the refused
block alone then give every entry the same answer (`refused_looks_missing`).
-/
import BitswapAuth.Decision.Batch

namespace BitswapAuth

open Lib

/-! ## Draining the queue -/

/-- `nextEnvelope` again and again, each call going on with the batches that the one before it has
left. -/
def envelopes : Nat → List PoppedBatch → List Envelope
  | 0, _ => []
  | n + 1, bs =>
      match (nextEnvelope bs).envelope with
      | none => []
      | some env => env :: envelopes n (nextEnvelope bs).rest

/-- The envelopes for all batches, from a blockstore that stays as it is. -/
def drain (bs : AuthedBlockstore) (pops : List Pop) : List Envelope :=
  envelopes pops.length (pops.map bs.batch)

theorem mem_envelopes {env : Envelope} : ∀ {bs : List PoppedBatch} {n : Nat}, bs.length ≤ n →
    (∀ b ∈ bs, (batchMessage b.found b.pop).isSome = true) →
      (env ∈ envelopes n bs ↔ ∃ b ∈ bs, b.pop.tasks ≠ [] ∧ env.message.empty = false ∧
        batchMessage b.found b.pop = some env.message ∧
          env = ⟨b.pop.peer, env.message, b.pop.tasks⟩)
  | [], 0, _, _ => by simp [envelopes]
  | [], n + 1, _, _ => by simp [envelopes, nextEnvelope]
  | b :: bs, n + 1, hn, h => by
      obtain ⟨hb, hbs⟩ := List.forall_mem_cons.mp h
      obtain ⟨msg, hmsg⟩ := Option.isSome_iff_exists.mp hb
      have hn : bs.length ≤ n := Nat.le_of_succ_le_succ hn
      rw [List.exists_mem_cons_iff]
      by_cases hpass : b.pop.tasks = [] ∨ msg.empty = true
      · -- the call goes on to the next batch
        have hno : ¬ (b.pop.tasks ≠ [] ∧ env.message.empty = false ∧
            batchMessage b.found b.pop = some env.message ∧
              env = ⟨b.pop.peer, env.message, b.pop.tasks⟩) := by
          rintro ⟨hne, hfull, hm, -⟩
          rw [← Option.some.inj (hmsg.symm.trans hm), hpass.resolve_left hne] at hfull
          cases hfull
        obtain ⟨henv, hrest⟩ :=
          nextEnvelope_passes bs (hpass.imp_right fun hempty => ⟨msg, hmsg, hempty⟩)
        have hsame : envelopes (n + 1) (b :: bs) = envelopes (n + 1) bs := by
          rw [envelopes, envelopes, henv, hrest]
        rw [hsame, mem_envelopes (hn.trans (Nat.le_succ n)) hbs, or_iff_right hno]
      · obtain ⟨hne, hfull⟩ := not_or.mp hpass
        have hfull := Bool.eq_false_iff.mpr hfull
        have hsent := nextEnvelope_sends bs hne hmsg hfull
        have hcons : envelopes (n + 1) (b :: bs) =
            ⟨b.pop.peer, msg, b.pop.tasks⟩ :: envelopes n bs := by
          rw [envelopes, hsent]
        rw [hcons, List.mem_cons, mem_envelopes hn hbs]
        refine or_congr_left ⟨?_, ?_⟩
        · rintro rfl
          exact ⟨hne, hfull, hmsg, rfl⟩
        · rintro ⟨-, -, hm, henv⟩
          rw [henv, Option.some.inj (hmsg.symm.trans hm)]

theorem mem_drain {bs : AuthedBlockstore} {env : Envelope} {pops : List Pop}
    (h : ∀ pop ∈ pops, (batchMessage (bs.lookups pop.peer) pop).isSome = true) :
    env ∈ drain bs pops ↔ ∃ pop ∈ pops, pop.tasks ≠ [] ∧ env.message.empty = false ∧
      batchMessage (bs.lookups pop.peer) pop = some env.message ∧
        env = ⟨pop.peer, env.message, pop.tasks⟩ := by
  have hlen : (pops.map bs.batch).length ≤ pops.length := (List.length_map bs.batch).le
  have hfound : ∀ b ∈ pops.map bs.batch, (batchMessage b.found b.pop).isSome = true :=
    List.forall_mem_map.mpr h
  rw [drain, mem_envelopes hlen hfound]
  simp only [List.mem_map, exists_exists_and_eq_and]
  rfl

/-- The tasks popped for a peer. -/
def popped (p : PeerID) (pops : List Pop) : List Task :=
  (pops.filter (·.peer = p)).flatMap Pop.tasks

/-- The envelopes show the answers to the tasks that were popped, whatever part of the
answers is looked at. -/
theorem shown_drain {X : Type} (f : Option AuthBlock × Option BlockPresenceType → Option X)
    (hf : f (none, none) = none) {bs : AuthedBlockstore}
    (hsrc : ∀ c b, bs.source.get c = .ok b → b.cid = c) {p : PeerID} {pops : List Pop}
    (hok : ∀ pop ∈ pops, (batchMessage (bs.lookups pop.peer) pop).isSome = true)
    (hnd : ((popped p pops).map Task.topic).Nodup) {w : Want} {x : X} :
    (∃ env ∈ drain bs pops, env.peer = p ∧ f (env.message.shown w) = some x) ↔
      ∃ t ∈ popped p pops, t.topic = w ∧ f (t.outcome (bs.lookups p)) = some x := by
  have hbatch : ∀ pop ∈ pops, pop.peer = p → ∀ {msg},
      batchMessage (bs.lookups pop.peer) pop = some msg →
        (∀ t ∈ pop.tasks, msg.shown t.topic = t.outcome (bs.lookups pop.peer)) ∧
          ∀ w, w ∉ pop.tasks.map Task.topic → msg.shown w = (none, none) := by
    intro pop hpop hp msg hmsg
    refine batchMessage_shown (AuthedBlockstore.cid_of_lookups hsrc pop.peer) hmsg ?_
    refine hnd.sublist (List.Sublist.map _ ?_)
    rw [popped, List.flatMap_def]
    refine List.sublist_flatten_of_mem (List.mem_map.mpr ⟨pop, ?_, rfl⟩)
    exact List.mem_filter.mpr ⟨hpop, by simpa using hp⟩
  constructor
  · rintro ⟨env, henv, hp, hx⟩
    obtain ⟨pop, hpop, -, -, hmsg, henv⟩ := (mem_drain hok).mp henv
    have hp : pop.peer = p := (congrArg Envelope.peer henv).symm.trans hp
    obtain ⟨hshown, hrest⟩ := hbatch pop hpop hp hmsg
    have hw : w ∈ pop.tasks.map Task.topic := by
      by_contra hw
      rw [hrest w hw, hf] at hx
      exact absurd hx (by simp)
    obtain ⟨t, ht, rfl⟩ := List.mem_map.mp hw
    rw [hshown t ht, hp] at hx
    refine ⟨t, List.mem_flatMap.mpr ⟨pop, ?_, ht⟩, rfl, hx⟩
    exact List.mem_filter.mpr ⟨hpop, by simpa using hp⟩
  · rintro ⟨t, ht, rfl, hx⟩
    obtain ⟨pop, hpop, ht⟩ := List.mem_flatMap.mp ht
    obtain ⟨hpop, hp⟩ := List.mem_filter.mp hpop
    have hp : pop.peer = p := by simpa using hp
    obtain ⟨msg, hmsg⟩ := Option.isSome_iff_exists.mp (hok pop hpop)
    have hshown := (hbatch pop hpop hp hmsg).1 t ht
    rw [← hp, ← hshown] at hx
    have hfull : msg.empty = false := by
      by_contra hempty
      rw [Message.shown_of_empty (Bool.not_eq_false _ ▸ hempty), hf] at hx
      exact absurd hx (by simp)
    exact ⟨⟨pop.peer, msg, pop.tasks⟩,
      (mem_drain hok).mpr ⟨pop, hpop, List.ne_nil_of_mem ht, hfull, hmsg, rfl⟩, hp, hx⟩

/-! ## The answer to an entry -/

namespace Engine

/-- What the engine answers to an entry of a peer's message. -/
def answer (e : Engine) (p : PeerID) (et : Message.Entry) :
    Option AuthBlock × Option BlockPresenceType :=
  match e.bs.getSize et.want.cid with
  | .ok size =>
      (e.foundTask et.want et.priority et.wantType size et.sendDontHave).outcome (e.bs.lookups p)
  | .error _ => (none, if e.sendDontHaves && et.sendDontHave then some .DONT_HAVE else none)

/-- The choices made while a message is answered: the order of its entries, the
schedule of the jobs for the sizes, and the batches that are popped, also for other
peers. -/
structure Exchange where
  entries : RangeOrder
  sizes : Schedule
  pops : List Pop

/-- The message is read, no batch is refused, and the tasks popped for the peer are
those the message has put on the queue, each of them once. -/
structure Exchange.Drained (ex : Exchange) (e : Engine) (p : PeerID) (m : Message) : Prop where
  read : (e.readMessage p m ex.entries ex.sizes).isSome = true
  fetched : ∀ pop ∈ ex.pops, (batchMessage (e.bs.lookups pop.peer) pop).isSome = true
  tasks : (popped p ex.pops).Perm (tasksFor p (e.messageReceived p m ex.entries ex.sizes).2)

/-- The task of an entry comes to the answer to it. -/
theorem shown_wantTask {X : Type} (f : Option AuthBlock × Option BlockPresenceType → Option X)
    (hf : f (none, none) = none) {e : Engine} {p : PeerID} {sizes : GoMap Want Nat}
    {et : Message.Entry}
    (hsizes : ∀ n, sizes.lookup et.want = some n ↔ e.bs.getSize et.want.cid = .ok n) {x : X} :
    (∃ t, e.wantTask sizes et = some t ∧ f (t.outcome (e.bs.lookups p)) = some x) ↔
      f (e.answer p et) = some x := by
  rw [wantTask, answer]
  cases hs : e.bs.getSize et.want.cid with
  | ok n =>
      rw [(hsizes n).mpr hs]
      simp
  | error err =>
      have hno : sizes.lookup et.want = none := by
        refine Option.eq_none_iff_forall_ne_some.mpr fun n hn => ?_
        rw [(hsizes n).mp hn] at hs
        exact absurd hs (by simp)
      rw [hno]
      dsimp only
      split
      · simp [Task.outcome]
      · simp [hf]

theorem nodup_tasksFor {e : Engine} {p : PeerID} {m : Message} {o : RangeOrder} {s : Schedule}
    {r : Received} (h : e.readMessage p m o s = some r) :
    ((tasksFor p (e.messageReceived p m o s).2).map Task.topic).Nodup := by
  have hwants : (r.wants.map Message.Entry.want).Nodup := by
    rw [readMessage] at h
    split at h
    · exact absurd h (by simp)
    · obtain rfl := Option.some.inj h
      exact Message.nodup_wantlistEntries.sublist (List.filter_sublist.map _)
  rw [tasksFor_messageReceived h (readMessage_spec h).1, List.Nodup, List.pairwise_map]
  rw [List.Nodup, List.pairwise_map] at hwants
  refine hwants.filterMap _ fun et et' hne t ht t' ht' => ?_
  rw [topic_wantTask ht, topic_wantTask ht']
  exact hne

/-- **The envelopes of a drained exchange.**  What they show the peer of a want is the
answer to the entry of the message for it, in whatever order the entries were read, the
jobs done and the tasks popped. -/
theorem shown_iff {X : Type} (f : Option AuthBlock × Option BlockPresenceType → Option X)
    (hf : f (none, none) = none) {e : Engine}
    (hsrc : ∀ c b, e.bs.source.get c = .ok b → b.cid = c) {p : PeerID} {m : Message}
    {ex : Exchange} (h : ex.Drained e p m) {w : Want} {x : X} :
    (∃ env ∈ drain e.bs ex.pops, env.peer = p ∧ f (env.message.shown w) = some x) ↔
      ∃ et, m.wantlist.lookup w = some et ∧ et.cancel = false ∧ f (e.answer p et) = some x := by
  obtain ⟨r, hr⟩ := Option.isSome_iff_exists.mp h.read
  obtain ⟨hpeer, hwants, -, hsizes⟩ := readMessage_spec hr
  have hnd : ((popped p ex.pops).map Task.topic).Nodup :=
    (h.tasks.map Task.topic).nodup_iff.mpr (nodup_tasksFor hr)
  have hsize : ∀ et ∈ r.wants, ∀ n,
      r.blockSizes.lookup et.want = some n ↔ e.bs.getSize et.want.cid = .ok n := by
    intro et het n
    rw [hsizes]
    exact and_iff_right ⟨et, het, rfl⟩
  rw [shown_drain f hf hsrc h.fetched hnd]
  constructor
  · rintro ⟨t, ht, rfl, hx⟩
    obtain ⟨et, het, hwt⟩ :=
      (mem_tasksFor_messageReceived hr hpeer).mp (h.tasks.mem_iff.mp ht)
    obtain ⟨hentry, hcan⟩ := (hwants et).mp het
    rw [topic_wantTask hwt]
    exact ⟨et, hentry, hcan, (shown_wantTask f hf (hsize et het)).mp ⟨t, hwt, hx⟩⟩
  · rintro ⟨et, hentry, hcan, hx⟩
    have hw : et.want = w := m.keyed w et hentry
    have het : et ∈ r.wants := (hwants et).mpr ⟨hw ▸ hentry, hcan⟩
    obtain ⟨t, hwt, hx⟩ := (shown_wantTask f hf (hsize et het)).mpr hx
    have ht := (mem_tasksFor_messageReceived hr hpeer).mpr ⟨et, het, hwt⟩
    exact ⟨t, h.tasks.mem_iff.mpr ht, (topic_wantTask hwt).trans hw, hx⟩

/-! ## Two blockstores -/

/-- The two blockstores differ only in that the second one holds a block for the CID. -/
structure DifferAt (c : Cid) (data : Bytes) (missing held : Blockstore) : Prop where
  elsewhere : ∀ k, k ≠ c →
    missing.has k = held.has k ∧ missing.get k = held.get k ∧ missing.getSize k = held.getSize k
  missing : missing.has c = .ok false ∧ missing.get c = .error .notFound ∧
    missing.getSize c = .error .notFound
  held : held.has c = .ok true ∧ held.get c = .ok ⟨c, data⟩ ∧ held.getSize c = .ok data.length

section

variable {c : Cid} {data : Bytes} {missing held : Blockstore}
  {allow : Cid → Bytes → PeerID → Bytes → Bool}

theorem DifferAt.ofContent {content : GoMap Cid Bytes} (hc : c ∉ content) (data : Bytes) :
    DifferAt c data (.ofContent content) (.ofContent (content.insert c data)) where
  elsewhere k hk := by simp [Blockstore.ofContent, hk]
  missing := by simp [Blockstore.ofContent, hc, AList.lookup_eq_none.mpr hc]
  held := by simp [Blockstore.ofContent]

theorem DifferAt.authed_get (h : DifferAt c data missing held) {k : Cid} (hk : k ≠ c)
    (p : PeerID) (a : Bytes) :
    (AuthedBlockstore.mk missing allow).get k p a = (AuthedBlockstore.mk held allow).get k p a := by
  obtain ⟨hhas, hget, -⟩ := h.elsewhere k hk
  simp only [AuthedBlockstore.get, hhas, hget]

/-- An entry for another CID is answered the same. -/
theorem DifferAt.answer_elsewhere (h : DifferAt c data missing held) (e : Engine) (p : PeerID)
    {et : Message.Entry} (hk : et.want.cid ≠ c) :
    ({ e with bs := ⟨missing, allow⟩ } : Engine).answer p et =
      ({ e with bs := ⟨held, allow⟩ } : Engine).answer p et := by
  obtain ⟨-, -, hsize⟩ := h.elsewhere _ hk
  simp only [answer, AuthedBlockstore.getSize, hsize]
  cases held.getSize et.want.cid with
  | error err => rfl
  | ok size => exact Task.outcome_congr (h.authed_get hk p _)

theorem DifferAt.answer_refused (h : DifferAt c data missing held) {e : Engine}
    (hdh : e.sendDontHaves = true) {p : PeerID} {et : Message.Entry} (hk : et.want.cid = c)
    (hrej : allow c data p et.want.auth = false)
    (hask : e.sendAsBlock et.wantType data.length = true) :
    ({ e with bs := ⟨missing, allow⟩ } : Engine).answer p et =
      ({ e with bs := ⟨held, allow⟩ } : Engine).answer p et := by
  obtain ⟨-, -, hno⟩ := h.missing
  obtain ⟨hhas, hget, hsize⟩ := h.held
  have hrefused : (AuthedBlockstore.mk held allow).get et.want.cid p et.want.auth =
      .error .unauthorised := by
    simp [AuthedBlockstore.get, hk, hhas, hget, hrej]
  simp only [answer, AuthedBlockstore.getSize, hk, hno, hsize, hdh, Bool.true_and]
  symm
  exact Task.outcome_refused ⟨rfl, hask⟩ hrefused

theorem DifferAt.cid_missing (h : DifferAt c data missing held)
    (hsrc : ∀ k b, held.get k = .ok b → b.cid = k) (k : Cid) (b : Block)
    (hb : missing.get k = .ok b) : b.cid = k := by
  by_cases hk : k = c
  · rw [hk, h.missing.2.1] at hb
    cases hb
  · rw [(h.elsewhere k hk).2.1] at hb
    exact hsrc k b hb

/-- Every entry of a message that asks for no other want of the refused block is answered
the same. -/
theorem DifferAt.answer_eq (h : DifferAt c data missing held) {e : Engine}
    (hdh : e.sendDontHaves = true) {p : PeerID} {a : Bytes} (hrej : allow c data p a = false)
    {m : Message} {et : Message.Entry} (het : m.wantlist.lookup ⟨c, a⟩ = some et)
    (hask : e.sendAsBlock et.wantType data.length = true)
    (hother : ∀ w ∈ m.wantlist, w.cid = c → w = ⟨c, a⟩) {w : Want} {et' : Message.Entry}
    (het' : m.wantlist.lookup w = some et') :
    ({ e with bs := ⟨missing, allow⟩ } : Engine).answer p et' =
      ({ e with bs := ⟨held, allow⟩ } : Engine).answer p et' := by
  have hw : et'.want = w := m.keyed w et' het'
  by_cases hc : w.cid = c
  · obtain rfl := hother w (GoMap.mem_of_lookup het') hc
    obtain rfl : et = et' := Option.some.inj (het.symm.trans het')
    exact h.answer_refused hdh (by rw [hw]) (by rw [hw]; exact hrej) hask
  · exact h.answer_elsewhere e p (by rw [hw]; exact hc)

/-- **A refused block looks like a missing one.**  For two blockstores that differ in one
block, and a message that asks for the block under an auth string for which `allow`
refuses it: the blocks and the block presences the peer is sent are the same. -/
theorem refused_looks_missing (e : Engine) (hdh : e.sendDontHaves = true)
    (allow : Cid → Bytes → PeerID → Bytes → Bool) (c : Cid) (data : Bytes)
    (missing held : Blockstore) (hdiff : DifferAt c data missing held)
    (hsrc : ∀ k b, held.get k = .ok b → b.cid = k) (p : PeerID) (a : Bytes)
    (hrej : allow c data p a = false) (m : Message) (et : Message.Entry)
    (het : m.wantlist.lookup ⟨c, a⟩ = some et)
    (hty : et.wantType = .wantBlock ∨
      et.wantType = .wantHave ∧ data.length ≤ e.maxBlockSizeReplaceHasWithBlock)
    (hother : ∀ w ∈ m.wantlist, w.cid = c → w = ⟨c, a⟩) (ex ex' : Exchange)
    (hex : ex.Drained { e with bs := ⟨missing, allow⟩ } p m)
    (hex' : ex'.Drained { e with bs := ⟨held, allow⟩ } p m) :
    (∀ w b,
      (∃ env ∈ drain ⟨missing, allow⟩ ex.pops,
        env.peer = p ∧ env.message.blocks.lookup w = some b) ↔
      ∃ env ∈ drain ⟨held, allow⟩ ex'.pops,
        env.peer = p ∧ env.message.blocks.lookup w = some b) ∧
    ∀ w t,
      (∃ env ∈ drain ⟨missing, allow⟩ ex.pops,
        env.peer = p ∧ env.message.blockPresences.lookup w = some t) ↔
      ∃ env ∈ drain ⟨held, allow⟩ ex'.pops,
        env.peer = p ∧ env.message.blockPresences.lookup w = some t := by
  have hask : e.sendAsBlock et.wantType data.length = true := by
    rw [sendAsBlock, Bool.or_eq_true, decide_eq_true_eq, decide_eq_true_eq]
    exact hty.imp_right And.right
  have hboth : ∀ {X : Type} (f : Option AuthBlock × Option BlockPresenceType → Option X),
      f (none, none) = none → ∀ w x,
        ((∃ env ∈ drain ⟨missing, allow⟩ ex.pops,
            env.peer = p ∧ f (env.message.shown w) = some x) ↔
          ∃ env ∈ drain ⟨held, allow⟩ ex'.pops,
            env.peer = p ∧ f (env.message.shown w) = some x) := by
    intro X f hf w x
    refine (shown_iff f hf (hdiff.cid_missing hsrc) hex).trans
      (Iff.trans ?_ (shown_iff f hf hsrc hex').symm)
    refine exists_congr fun et' => and_congr_right fun het' => ?_
    rw [hdiff.answer_eq hdh hrej het hask hother het']
  exact ⟨hboth Prod.fst rfl, hboth Prod.snd rfl⟩

end

/-- A want-have for a small block that is refused and a want-block for one that is
released, answered in one batch where the first block is missing and in two where it is
stored: both times the peer gets a `DONT_HAVE` and a block. -/
theorem refused_looks_missing_two_batches :
    let w : Want := ⟨⟨[1]⟩, [65]⟩
    let v : Want := ⟨⟨[2]⟩, [65]⟩
    let p : PeerID := ⟨[7]⟩
    let content := (∅ : GoMap Cid Bytes).insert v.cid [30]
    let allow : Cid → Bytes → PeerID → Bytes → Bool := fun k _ _ _ => k = v.cid
    let held : AuthedBlockstore := ⟨.ofContent (content.insert w.cid [10, 20]), allow⟩
    let m := ((askFor w .wantHave).addEntry v 2 .wantBlock true).1
    let tasks := tasksFor p ((Engine.new held).messageReceived p m .stored (.complete .stored)).2
    let pops := tasks.reverse.map fun t => Pop.mk p [t] 0 (.complete .stored) .stored
    (∃ env ∈ drain held pops, env.peer = p ∧
      env.message.blocks.lookup v = some (AuthBlock.new ⟨v.cid, [30]⟩ v.auth)) ∧
    ∃ env ∈ drain held pops, env.peer = p ∧
      env.message.blockPresences.lookup w = some .DONT_HAVE := by
  intro w v p content allow held m tasks pops
  let missing : AuthedBlockstore := ⟨.ofContent content, allow⟩
  have hother : ∀ k ∈ m.wantlist.keys, k.cid = w.cid → k = w := by decide
  have hsame : ∀ pops₀ pops₁ : List Pop,
      Exchange.Drained ⟨.stored, .complete .stored, pops₀⟩ (Engine.new missing) p m →
      Exchange.Drained ⟨.stored, .complete .stored, pops₁⟩ (Engine.new held) p m →
      (∀ u b, (∃ env ∈ drain missing pops₀,
          env.peer = p ∧ env.message.blocks.lookup u = some b) ↔
        ∃ env ∈ drain held pops₁, env.peer = p ∧ env.message.blocks.lookup u = some b) ∧
      ∀ u t, (∃ env ∈ drain missing pops₀,
          env.peer = p ∧ env.message.blockPresences.lookup u = some t) ↔
        ∃ env ∈ drain held pops₁, env.peer = p ∧ env.message.blockPresences.lookup u = some t :=
    fun _ _ => refused_looks_missing (Engine.new held) rfl allow w.cid [10, 20] _ _
      (DifferAt.ofContent (by decide) _) (fun k b h => (ofContent_get_cid k b h).1) p w.auth
      (by decide) m ⟨w, 1, .wantHave, false, true⟩ (by decide) (.inr ⟨rfl, by decide⟩)
      (fun k hk => hother k (AList.mem_keys.mp hk)) _ _
  have hex : Exchange.Drained ⟨.stored, .complete .stored,
      [⟨p, tasksFor p ((Engine.new missing).messageReceived p m .stored (.complete .stored)).2, 0,
        .complete .stored, .stored⟩]⟩ (Engine.new missing) p m :=
    ⟨by decide, by decide, by decide⟩
  have hex' : Exchange.Drained ⟨.stored, .complete .stored, pops⟩ (Engine.new held) p m :=
    ⟨by decide, by decide, by decide⟩
  have hboth := hsame _ pops hex hex'
  exact ⟨(hboth.1 v _).mp (by decide), (hboth.2 w _).mp (by decide)⟩

end Engine

end BitswapAuth
