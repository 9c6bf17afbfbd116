/-
# `BitswapAuth.Decision.FullWantlist` — a full wantlist against a list of cancels

A message with a full wantlist is to replace everything the engine knows of a peer's wants.  It
could be sent in two messages instead, one that cancels all that is in the ledger and one with
the same entries that is not full.  The state of a peer is in three places, and only one of them
comes out the same.

    replaced wants      full wantlist              cancels, then the entries
    ledger              dropped                    dropped
    index               stay                       taken out
    request queue       stay, and what is asked    removed, and what is asked
                        for again is merged        for again is pushed anew

`full_replaces_iff` says when the rest comes out the same, too: every replaced want that the
index has is named in the message, and every replaced want with a pending task is asked for
again, by a task that merging with the old one does not change.

The request queue is third-party code.  What is assumed of it is that it keeps one pending task
for a want of a peer, that `Remove` deletes it and that `PushTasks` adds a task or merges it; how
tasks are merged is left open.
-/
import BitswapAuth.Decision.Disconnect
import BitswapAuth.Decision.TaskMerger

namespace BitswapAuth

open Lib

/-! ## The request queue -/

/-- The pending tasks of the request queue. -/
abbrev Pending := PeerID → Want → Option Task

namespace Pending

variable (merge : Task → Task → Task)

/-- A task with the pending one, if there is one, merged. -/
def joined (t : Task) : Option Task → Task
  | none => t
  | some existing => merge t existing

/-- What is pending after a task is pushed, if there is one to push. -/
def pushed (pending : Option Task) : Option Task → Option Task
  | none => pending
  | some t => some (joined merge t pending)

/-- One task of `PushTasks`. -/
def push (p : PeerID) (pending : Pending) (t : Task) : Pending := fun q w =>
  if q = p ∧ w = t.topic then some (joined merge t (pending q w)) else pending q w

/-- `Remove`. -/
def remove (p : PeerID) (pending : Pending) (c : Want) : Pending := fun q w =>
  if q = p ∧ w = c then none else pending q w

/-- A call on the queue. -/
def apply (pending : Pending) : QueueOp → Pending
  | .pushTasks p tasks => tasks.foldl (push merge p) pending
  | .remove c p => pending.remove p c

variable {merge} {p : PeerID} {w : Want}

theorem foldl_push {ts : List Task} (hnd : (ts.map Task.topic).Nodup) {t : Task} (ht : t ∈ ts)
    (pending : Pending) :
    ts.foldl (push merge p) pending p t.topic = some (joined merge t (pending p t.topic)) := by
  have hother : ∀ (pending : Pending) (t' : Task), t'.topic ≠ t.topic →
      push merge p pending t' p t.topic = pending p t.topic := by
    intro pending t' hne
    exact if_neg fun h => hne h.2.symm
  obtain ⟨pending', heq, hfold⟩ := foldl_own (fun pending : Pending => pending p t.topic)
    Task.topic (f := push merge p) hnd ht hother pending
  rw [hfold, push, if_pos ⟨rfl, rfl⟩, heq]

theorem foldl_push_elsewhere {ts : List Task} (hw : w ∉ ts.map Task.topic) (pending : Pending) :
    ts.foldl (push merge p) pending p w = pending p w :=
  foldl_elsewhere (fun pending : Pending => pending p w) Task.topic
    (fun _ _ hne => if_neg fun h => hne h.2.symm) ts pending hw

end Pending

namespace Message

/-- The entry of a want that the message asks for. -/
def asked (m : Message) (w : Want) : Option Entry :=
  (m.wantlist.lookup w).filter fun et => !et.cancel

theorem asked_eq_some {m : Message} {w : Want} {et : Entry} :
    m.asked w = some et ↔ m.wantlist.lookup w = some et ∧ et.cancel = false := by
  rw [asked, Option.filter_eq_some_iff, Bool.not_eq_true']

/-- The same entries in a message that is not full. -/
def incremental (m : Message) : Message := { m with full := false }

end Message

namespace Engine

variable {e : Engine} {p q : PeerID} {w : Want} {m : Message} {o o' : RangeOrder} {s : Schedule}
  {r : Received}

/-- The block size of a want as it is looked up. -/
def sizeOf (e : Engine) (w : Want) : GoMap Want Nat :=
  match e.bs.getSize w.cid with
  | .ok n => (∅ : GoMap Want Nat).insert w n
  | .error _ => ∅

/-- The task for a want of a message, if there is to be one. -/
def taskFor (e : Engine) (m : Message) (w : Want) : Option Task :=
  (m.asked w).bind (e.wantTask (e.sizeOf w))

/-- A message that cancels all that is in the peer's ledger. -/
def cancelAll (e : Engine) (p : PeerID) (o : RangeOrder) : Message :=
  match e.ledgerMap.lookup p with
  | none => .new false
  | some l => (l.wantList.entries o).foldl (fun m entry => (m.cancel entry.want).1) (.new false)

/-! ## What is read from a message -/

/-- Only the number of the wants decides whether the block sizes can be had. -/
theorem readMessage_eq_none : e.readMessage p m o s = none ↔
    ∃ i, s.refused = some i ∧ i < (m.wantlist.values.filter fun et => !et.cancel).length := by
  have hlen : ((m.wantlistEntries o).filter fun et => !et.cancel).length =
      (m.wantlist.values.filter fun et => !et.cancel).length :=
    ((o.range_perm _).filter _).length_eq
  rw [← hlen, readMessage, splitWantsCancels]
  dsimp only
  generalize (m.wantlistEntries o).filter (fun et => !et.cancel) = ws
  have hsnd : (getBlockSizes e.bs s (ws.map (·.want))).2 = true ↔
      ∃ i, s.refused = some i ∧ i < ws.length := by
    rw [getBlockSizes]
    cases ws with
    | nil => simp
    | cons et ws =>
        rw [if_neg (by simp), jobPerKey]
        cases s.refused with
        | none => simp
        | some i => simp
  rw [← hsnd]
  split
  · rename_i heq
    simp [heq]
  · rename_i heq
    simp [heq]

theorem nodup_wants (hr : e.readMessage p m o s = some r) : (r.wants.map (·.want)).Nodup := by
  unfold readMessage at hr
  dsimp only at hr
  split at hr
  · cases hr
  · cases hr
    exact Message.nodup_wantlistEntries.sublist (List.filter_sublist.map _)

/-- The task for an entry that is read is the one for its want. -/
theorem wantTask_readMessage (hr : e.readMessage p m o s = some r) {et : Message.Entry}
    (het : et ∈ r.wants) : e.wantTask r.blockSizes et = e.taskFor m et.want := by
  obtain ⟨-, hwants, -, hsizes⟩ := readMessage_spec hr
  have hsize : r.blockSizes.lookup et.want = (e.sizeOf et.want).lookup et.want := by
    rw [sizeOf]
    cases hget : e.bs.getSize et.want.cid with
    | ok n =>
        rw [(hsizes et.want n).mpr ⟨⟨et, het, rfl⟩, hget⟩, GoMap.lookup_insert_ite, if_pos rfl]
    | error err =>
        rw [AList.lookup_empty, Option.eq_none_iff_forall_ne_some]
        intro n hn
        have hok := ((hsizes et.want n).mp hn).2
        rw [hget] at hok
        cases hok
  rw [taskFor, Message.asked_eq_some.mpr ((hwants et).mp het), Option.bind_some, wantTask,
    wantTask, hsize]

theorem topic_taskFor {t : Task} (h : e.taskFor m w = some t) : t.topic = w := by
  obtain ⟨et, hask, ht⟩ := Option.bind_eq_some_iff.mp h
  exact (topic_wantTask ht).trans (m.keyed w et (Message.asked_eq_some.mp hask).1)

/-! ## What becomes of the ledger and the queue -/

/-- Of entries for different wants each is recorded as it is, if the ledger was empty. -/
theorem contains_foldl_wants {ws : List Message.Entry} (hnd : (ws.map (·.want)).Nodup) {l : Ledger}
    (hl : ∀ w, w ∉ l.wantList) {et : Message.Entry} (het : et ∈ ws) :
    (ws.foldl (fun l et => l.wants et.want et.priority et.wantType) l).wantListContains et.want =
      some ⟨et.want, et.priority, et.wantType⟩ := by
  have hother : ∀ (l : Ledger) (et' : Message.Entry), et'.want ≠ et.want →
      (l.wants et'.want et'.priority et'.wantType).wantListContains et.want =
        l.wantListContains et.want := by
    intro l et' hne
    exact Wantlist.lookup_add.trans (if_neg (Ne.symm hne))
  obtain ⟨l', heq, hfold⟩ := foldl_own (fun l : Ledger => l.wantListContains et.want)
    Message.Entry.want hnd het hother l
  have hnone : l'.wantList.set.lookup et.want = none :=
    heq.trans (AList.lookup_eq_none.mpr (hl et.want))
  refine hfold.trans (Wantlist.lookup_add.trans ?_)
  rw [if_pos rfl, hnone]
  rfl

/-- The cancels of a message remove from the queue what they take out of the ledger. -/
theorem pending_foldl_cancelEntry {merge : Task → Task → Task} {pending : Pending} :
    ∀ (cs : List Message.Entry) (s : Ledger × List QueueOp),
      (cs.foldl (cancelEntry p) s).2.foldl (Pending.apply merge) pending q w =
        if q = p ∧ w ∈ cs.map (·.want) ∧ w ∈ s.1.wantList then none
        else s.2.foldl (Pending.apply merge) pending q w
  | [], s => by simp
  | c :: cs, s => by
      have hremoved : (cancelEntry p s c).2.foldl (Pending.apply merge) pending q w =
          if q = p ∧ w = c.want ∧ w ∈ s.1.wantList then none
          else s.2.foldl (Pending.apply merge) pending q w := by
        unfold cancelEntry Ledger.cancelWant Wantlist.remove
        dsimp only
        by_cases hc : c.want ∈ s.1.wantList
        · rw [if_pos (show c.want ∈ s.1.wantList.set from hc), if_pos rfl, List.foldl_append]
          show Pending.remove p _ c.want q w = _
          rw [Pending.remove]
          by_cases hw : w = c.want
          · simp [hw, hc]
          · simp [hw]
        · rw [if_neg (show c.want ∉ s.1.wantList.set from hc), if_neg (by simp), if_neg]
          rintro ⟨-, rfl, hw⟩
          exact hc hw
      have hmem : w ∈ (cancelEntry p s c).1.wantList ↔ w ≠ c.want ∧ w ∈ s.1.wantList :=
        Wantlist.mem_remove
      rw [List.foldl_cons, pending_foldl_cancelEntry cs, hremoved]
      simp only [hmem, List.map_cons, List.mem_cons]
      by_cases hw : w = c.want
      · simp [hw]
      · simp [hw]

/-- The tasks for entries of different wants are for different wants. -/
theorem nodup_topics {f : Message.Entry → Option Task}
    (hf : ∀ et t, f et = some t → t.topic = et.want) {ws : List Message.Entry}
    (hnd : (ws.map (·.want)).Nodup) : ((ws.filterMap f).map Task.topic).Nodup := by
  refine hnd.sublist ?_
  clear hnd
  induction ws with
  | nil => exact .slnil
  | cons et ws ih =>
      cases ht : f et with
      | none =>
          rw [List.filterMap_cons_none ht]
          exact ih.cons _
      | some t =>
          rw [List.filterMap_cons_some ht, List.map_cons, hf et t ht]
          exact ih.cons_cons _

/-- The entry of the ledger that an entry of a message makes. -/
def recorded (et : Message.Entry) : Wantlist.Entry := ⟨et.want, et.priority, et.wantType⟩

/-- The ledger as the loops of `MessageReceived` find it. -/
def begun (e : Engine) (r : Received) : Ledger :=
  if r.full then { (e.findOrCreate r.peer).2 with wantList := .new } else (e.findOrCreate r.peer).2

/-- Nothing is in that ledger if the message is full, or if nothing was. -/
theorem notMem_begun (hr : e.readMessage p m o s = some r)
    (hempty : m.full = true ∨ ∀ w, ¬ e.Wants p w) (w : Want) :
    w ∉ ((e.indexMessage r).begun r).wantList := by
  intro hw
  rw [begun, full_readMessage hr] at hw
  split at hw
  · exact Wantlist.not_mem_new hw
  · rename_i hfull
    have hold : (e.indexMessage r).Wants r.peer w := mem_findOrCreate.mp hw
    rw [(readMessage_spec hr).1] at hold
    exact hempty.elim hfull fun hno => hno w hold

theorem entryOf_ledgerMessage (hr : e.readMessage p m o s = some r)
    (hempty : ∀ w, w ∉ ((e.indexMessage r).begun r).wantList) :
    ((e.indexMessage r).ledgerMessage r).1.entryOf p w = (m.asked w).map recorded := by
  obtain ⟨hpeer, hwants, -, -⟩ := readMessage_spec hr
  have hcancelled : ∀ w, w ∉ (r.cancels.foldl (cancelEntry r.peer)
      ((e.indexMessage r).begun r, [])).1.wantList :=
    fun w hw => hempty w ((mem_foldl_cancelEntry _ _).mp hw).1
  refine entryOf_setLedger.trans ((if_pos hpeer.symm).trans ?_)
  cases hask : m.asked w with
  | some et =>
      obtain ⟨het, hc⟩ := Message.asked_eq_some.mp hask
      obtain rfl := m.keyed w et het
      exact contains_foldl_wants (nodup_wants hr) hcancelled ((hwants et).mpr ⟨het, hc⟩)
  | none =>
      refine AList.lookup_eq_none.mpr fun hw => ?_
      rcases (mem_foldl_wants _ _).mp hw with hw | hw
      · obtain ⟨et, het, rfl⟩ := List.mem_map.mp hw
        rw [Message.asked_eq_some.mpr ((hwants et).mp het)] at hask
        cases hask
      · exact hcancelled w hw

/-- Pushing no tasks is not pushing. -/
theorem foldl_pushTasks {merge : Task → Task → Task} (as : List Task) (pending : Pending) :
    (if as.isEmpty then [] else [QueueOp.pushTasks p as]).foldl (Pending.apply merge) pending =
      as.foldl (Pending.push merge p) pending := by
  cases as with
  | nil => rfl
  | cons t as => rfl

theorem pending_ledgerMessage {merge : Task → Task → Task} {pending : Pending}
    (hr : e.readMessage p m o s = some r)
    (hempty : ∀ w, w ∉ ((e.indexMessage r).begun r).wantList) :
    ((e.indexMessage r).ledgerMessage r).2.foldl (Pending.apply merge) pending p w =
      Pending.pushed merge (pending p w) (e.taskFor m w) := by
  obtain ⟨hpeer, hwants, -, -⟩ := readMessage_spec hr
  -- the cancels find nothing to remove
  have hkept : ∀ w, (r.cancels.foldl (cancelEntry r.peer)
      ((e.indexMessage r).begun r, [])).2.foldl (Pending.apply merge) pending p w = pending p w :=
    fun w => (pending_foldl_cancelEntry _ _).trans (if_neg fun h => hempty w h.2.2)
  have htasks : r.wants.filterMap ((e.indexMessage r).wantTask r.blockSizes) =
      r.wants.filterMap fun et => e.taskFor m et.want :=
    List.filterMap_congr fun et het => wantTask_readMessage hr het
  have hnd : ((r.wants.filterMap fun et => e.taskFor m et.want).map Task.topic).Nodup :=
    nodup_topics (fun _ _ ht => topic_taskFor ht) (nodup_wants hr)
  rw [ledgerMessage]
  dsimp only
  rw [List.foldl_append, foldl_pushTasks, htasks, hpeer]
  cases htask : e.taskFor m w with
  | some t =>
      obtain rfl := topic_taskFor htask
      obtain ⟨et, hask, -⟩ := Option.bind_eq_some_iff.mp htask
      obtain ⟨het, hc⟩ := Message.asked_eq_some.mp hask
      have hw := m.keyed _ et het
      have hmem : t ∈ r.wants.filterMap fun et => e.taskFor m et.want :=
        List.mem_filterMap.mpr ⟨et, (hwants et).mpr ⟨hw.symm ▸ het, hc⟩, hw.symm ▸ htask⟩
      rw [Pending.foldl_push hnd hmem]
      exact congrArg (fun x => some (Pending.joined merge t x)) (hpeer ▸ hkept _)
  | none =>
      have hmem : w ∉ (r.wants.filterMap fun et => e.taskFor m et.want).map Task.topic := by
        intro hw
        obtain ⟨t, ht, rfl⟩ := List.mem_map.mp hw
        obtain ⟨et, -, ht⟩ := List.mem_filterMap.mp ht
        rw [topic_taskFor ht, ht] at htask
        cases htask
      rw [Pending.foldl_push_elsewhere hmem]
      exact hpeer ▸ hkept w

end Engine

/-- The engine with the pending tasks of its request queue. -/
structure QueuedEngine where
  e : Engine
  pending : Pending

namespace QueuedEngine

open Engine

section

variable (merge : Task → Task → Task)

/-- `MessageReceived`, with what it does to the queue. -/
def messageReceived (s : QueuedEngine) (p : PeerID) (m : Message) (o : RangeOrder)
    (sch : Schedule) : QueuedEngine :=
  let r := s.e.messageReceived p m o sch
  ⟨r.1, r.2.foldl (Pending.apply merge) s.pending⟩

end

/-- The two states are the same for a peer: its wantlist, the wants that list it, and its
pending tasks. -/
structure SameFor (p : PeerID) (s s' : QueuedEngine) : Prop where
  ledger : ∀ w, s.e.entryOf p w = s'.e.entryOf p w
  index : ∀ w, s.e.peerLedger.Has p w ↔ s'.e.peerLedger.Has p w
  pending : ∀ w, s.pending p w = s'.pending p w

variable {merge : Task → Task → Task} {s : QueuedEngine} {p : PeerID} {m : Message}
  {o : RangeOrder} {sch : Schedule} {w : Want}

theorem messageReceived_of_read {r : Received} (hr : s.e.readMessage p m o sch = some r) :
    s.messageReceived merge p m o sch =
      ⟨((s.e.indexMessage r).ledgerMessage r).1,
        ((s.e.indexMessage r).ledgerMessage r).2.foldl (Pending.apply merge) s.pending⟩ := by
  rw [messageReceived, Engine.messageReceived, hr]

/-- A message that is read when nothing is left in the ledger, because it is full or because
nothing was in it. -/
structure Refilled (merge : Task → Task → Task) (p : PeerID) (m : Message) (s s' : QueuedEngine) :
    Prop where
  ledger : ∀ w, s'.e.entryOf p w = (m.asked w).map recorded
  index : ∀ w, s'.e.peerLedger.Has p w ↔
    (m.flag w = some false ∨ s.e.peerLedger.Has p w) ∧ m.flag w ≠ some true
  pending : ∀ w, s'.pending p w = Pending.pushed merge (s.pending p w) (s.e.taskFor m w)

theorem refilled {r : Received} (hr : s.e.readMessage p m o sch = some r)
    (hempty : m.full = true ∨ ∀ w, ¬ s.e.Wants p w) :
    Refilled merge p m s (s.messageReceived merge p m o sch) := by
  have hbegun := notMem_begun hr hempty
  rw [messageReceived_of_read hr]
  refine ⟨fun w => entryOf_ledgerMessage hr hbegun, fun w => ?_,
    fun w => pending_ledgerMessage hr hbegun⟩
  show ((s.e.indexMessage r).ledgerMessage r).1.peerLedger.Has p w ↔ _
  rw [peerLedger_ledgerMessage, has_indexMessage, mem_wants_iff hr, mem_cancels_iff hr,
    (readMessage_spec hr).1]
  simp only [true_and, ne_eq]

/-! ## Cancelling everything first -/

theorem flag_cancelAll {e : Engine} : (e.cancelAll p o).flag w =
    if e.Wants p w then some true else none := by
  cases hl : e.ledgerMap.lookup p with
  | none =>
      have hno : ¬ e.Wants p w := by
        rintro ⟨l, h, -⟩
        rw [hl] at h
        cases h
      rw [if_neg hno, cancelAll, hl]
      rfl
  | some l =>
      have hmem : w ∈ (l.wantList.entries o).map (·.want) ↔ e.Wants p w := by
        rw [List.mem_map, Wants, hl]
        simpa using Wantlist.exists_mem_entries
      have h := Message.flag_foldl_cancel ((l.wantList.entries o).map (·.want)) (.new false) w
      rw [List.foldl_map] at h
      rw [cancelAll, hl]
      refine h.trans ?_
      simp only [hmem]
      rfl

theorem full_cancelAll {e : Engine} : (e.cancelAll p o).full = false := by
  rw [cancelAll]
  split
  · rfl
  · refine foldl_keeps Message.full (fun m entry => ?_) _ _
    rw [Message.cancel, Message.addEntry']
    split <;> rfl

/-- No block sizes are needed for cancels, so the message is always read. -/
theorem read_cancelAll (e : Engine) (p : PeerID) (o o' : RangeOrder) (sch : Schedule) :
    ∃ r, e.readMessage p (e.cancelAll p o) o' sch = some r := by
  rw [← Option.ne_none_iff_exists', ne_eq, readMessage_eq_none]
  rintro ⟨i, -, hi⟩
  obtain ⟨et, het⟩ := List.exists_mem_of_length_pos (Nat.zero_lt_of_lt hi)
  obtain ⟨hmem, hc⟩ := List.mem_filter.mp het
  obtain ⟨k, hk⟩ := GoMap.mem_values.mp hmem
  have hflag : (e.cancelAll p o).flag k = some false := by
    rw [Message.flag, hk, Option.map_some]
    simpa using hc
  rw [flag_cancelAll] at hflag
  split at hflag <;> cases hflag

section

variable {e : Engine} {o' : RangeOrder} {r : Received}

theorem notMem_wants_cancelAll (hr : e.readMessage p (e.cancelAll p o) o' sch = some r) (w : Want) :
    w ∉ r.wants.map (·.want) := by
  intro hw
  rw [mem_wants_iff hr, flag_cancelAll] at hw
  split at hw <;> cases hw

theorem mem_cancels_cancelAll (hr : e.readMessage p (e.cancelAll p o) o' sch = some r) (w : Want) :
    w ∈ r.cancels.map (·.want) ↔ e.Wants p w := by
  rw [mem_cancels_iff hr, flag_cancelAll]
  split
  · rename_i hw
    exact iff_of_true rfl hw
  · rename_i hw
    exact iff_of_false (by simp) hw

/-- Every pending task of a want of the ledger is removed, and none is pushed. -/
theorem pending_cancelAll (hr : e.readMessage p (e.cancelAll p o) o' sch = some r)
    (merge : Task → Task → Task) (pending : Pending) (w : Want) :
    ((e.indexMessage r).ledgerMessage r).2.foldl (Pending.apply merge) pending p w =
      if e.Wants p w then none else pending p w := by
  have hpeer := (readMessage_spec hr).1
  have hnil : r.wants = [] := by
    rw [← List.map_eq_nil_iff (f := fun et : Message.Entry => et.want)]
    exact List.eq_nil_iff_forall_not_mem.mpr (notMem_wants_cancelAll hr)
  have hfull : r.full = false := (full_readMessage hr).trans full_cancelAll
  have hbegun : w ∈ ((e.indexMessage r).begun r).wantList ↔ e.Wants p w := by
    rw [begun, hfull, if_neg (by simp), hpeer]
    exact mem_findOrCreate
  have hcond : (p = r.peer ∧ w ∈ r.cancels.map (·.want) ∧
      w ∈ ((e.indexMessage r).begun r).wantList) ↔ e.Wants p w := by
    rw [mem_cancels_cancelAll hr, hbegun, and_self, hpeer, eq_self_iff_true, true_and]
  rw [ledgerMessage]
  dsimp only
  rw [hnil, List.filterMap_nil, List.isEmpty_nil, if_pos rfl, List.append_nil]
  exact (pending_foldl_cancelEntry _ _).trans (if_congr hcond rfl rfl)

end

/-- All that was in the ledger is cancelled: nothing is left in it, and the index and the queue
have lost what was. -/
structure Emptied (p : PeerID) (s s' : QueuedEngine) : Prop where
  ledger : ∀ w, ¬ s'.e.Wants p w
  index : ∀ w, s'.e.peerLedger.Has p w ↔ s.e.peerLedger.Has p w ∧ ¬ s.e.Wants p w
  pending : ∀ w, s'.pending p w = if s.e.Wants p w then none else s.pending p w
  tasks : ∀ m w, s'.e.taskFor m w = s.e.taskFor m w

theorem emptied (merge : Task → Task → Task) (s : QueuedEngine) (p : PeerID) (o o' : RangeOrder)
    (sch : Schedule) :
    Emptied p s (s.messageReceived merge p (s.e.cancelAll p o) o' sch) := by
  obtain ⟨r, hr⟩ := read_cancelAll s.e p o o' sch
  have hpeer := (readMessage_spec hr).1
  have hwants := notMem_wants_cancelAll hr
  have hcancels := mem_cancels_cancelAll hr
  rw [messageReceived_of_read hr]
  refine ⟨fun w hw => ?_, fun w => ?_, pending_cancelAll hr merge s.pending, fun m w => ?_⟩
  · rcases wants_ledgerMessage.mp hw with ⟨-, hin⟩ | ⟨hold, hno⟩
    · exact hwants w hin
    · exact hno ⟨hpeer.symm, .inr ((hcancels w).mpr hold)⟩
  · show ((s.e.indexMessage r).ledgerMessage r).1.peerLedger.Has p w ↔ _
    rw [peerLedger_ledgerMessage, has_indexMessage, hcancels, hpeer]
    simp [hwants]
  · show ((s.e.indexMessage r).findOrCreate r.peer).1.taskFor m w = _
    rw [findOrCreate]
    split <;> rfl

/-! ## The two ways compared -/

/-- What it takes for a full wantlist to replace everything: if it is read at all, every want of
the ledger that the index has is named in it, and every want of the ledger with a pending task is
asked for again, by a task that merging with the pending one does not change.  If its block sizes
cannot be had, nothing is replaced, and there must be nothing to replace. -/
def Replaces (merge : Task → Task → Task) (s : QueuedEngine) (p : PeerID) (m : Message)
    (o : RangeOrder) (sch : Schedule) : Prop :=
  match s.e.readMessage p m o sch with
  | none => ∀ w, ¬ s.e.Wants p w
  | some _ => ∀ w, s.e.Wants p w →
      (s.e.peerLedger.Has p w → w ∈ m.wantlist) ∧
      ∀ t, s.pending p w = some t → ∃ t', s.e.taskFor m w = some t' ∧ merge t' t = t'

section

variable {s₁ s' s'' : QueuedEngine}

/-- If neither message is read, only the cancels have been. -/
theorem sameFor_emptied_iff (h₁ : Emptied p s s₁) : SameFor p s s₁ ↔ ∀ w, ¬ s.e.Wants p w := by
  have hnone : ∀ {e : Engine} {w : Want}, ¬ e.Wants p w ↔ e.entryOf p w = none := by
    intro e w
    rw [wants_iff_entryOf, not_exists, Option.eq_none_iff_forall_ne_some]
  constructor
  · intro h w
    rw [hnone, h.ledger w]
    exact hnone.mp (h₁.ledger w)
  · intro h
    refine ⟨fun w => ?_, fun w => ?_, fun w => ?_⟩
    · rw [hnone.mp (h w), hnone.mp (h₁.ledger w)]
    · rw [h₁.index, and_iff_left (h w)]
    · rw [h₁.pending, if_neg (h w)]

/-- If both are read, they agree about a want in the index just if it is not left there. -/
theorem same_index_iff (h₁ : Emptied p s s₁) (hf : Refilled merge p m s s')
    (hi : Refilled merge p m.incremental s₁ s'') (w : Want) :
    (s'.e.peerLedger.Has p w ↔ s''.e.peerLedger.Has p w) ↔
      (s.e.Wants p w → s.e.peerLedger.Has p w → w ∈ m.wantlist) := by
  have hix : s''.e.peerLedger.Has p w ↔
      (m.flag w = some false ∨ (s.e.peerLedger.Has p w ∧ ¬ s.e.Wants p w)) ∧
        m.flag w ≠ some true := by
    rw [hi.index, h₁.index]
    rfl
  rw [hf.index, hix, Message.mem_wantlist_iff_flag]
  constructor
  · intro h hw hhas
    by_contra hmem
    rw [not_or] at hmem
    have hin := h.mp ⟨.inr hhas, hmem.2⟩
    exact hin.1.elim hmem.1 fun hrest => hrest.2 hw
  · intro h
    refine and_congr_left fun hnc => ?_
    constructor
    · rintro (hask | hhas)
      · exact .inl hask
      · by_cases hw : s.e.Wants p w
        · exact .inl ((h hw hhas).resolve_right hnc)
        · exact .inr ⟨hhas, hw⟩
    · exact Or.imp_right And.left

/-- They agree about a pending task just if none is left, or one that merging does not change. -/
theorem same_pending_iff (h₁ : Emptied p s s₁) (hf : Refilled merge p m s s')
    (hi : Refilled merge p m.incremental s₁ s'') (w : Want) :
    s'.pending p w = s''.pending p w ↔
      (s.e.Wants p w → ∀ t, s.pending p w = some t →
        ∃ t', s.e.taskFor m w = some t' ∧ merge t' t = t') := by
  have hpending : s''.pending p w =
      Pending.pushed merge (if s.e.Wants p w then none else s.pending p w) (s.e.taskFor m w) := by
    rw [hi.pending, h₁.tasks, h₁.pending]
    rfl
  rw [hf.pending, hpending]
  by_cases hw : s.e.Wants p w
  · rw [if_pos hw]
    constructor
    · intro heq _ t ht
      rw [ht] at heq
      cases htask : s.e.taskFor m w with
      | none =>
          rw [htask] at heq
          cases heq
      | some t' =>
          rw [htask] at heq
          exact ⟨t', rfl, Option.some.inj heq⟩
    · intro h
      cases hp : s.pending p w with
      | none => rfl
      | some t =>
          obtain ⟨t', htask, hmerge⟩ := h hw t hp
          rw [htask]
          exact congrArg some hmerge
  · rw [if_neg hw]
    exact iff_of_true rfl fun hw' => absurd hw' hw

/-- If both are read, the ledger is the same, and the rest is compared want by want. -/
theorem sameFor_refilled_iff (h₁ : Emptied p s s₁) (hf : Refilled merge p m s s')
    (hi : Refilled merge p m.incremental s₁ s'') :
    SameFor p s' s'' ↔ ∀ w, s.e.Wants p w →
      (s.e.peerLedger.Has p w → w ∈ m.wantlist) ∧
      ∀ t, s.pending p w = some t → ∃ t', s.e.taskFor m w = some t' ∧ merge t' t = t' := by
  constructor
  · intro h w hw
    exact ⟨(same_index_iff h₁ hf hi w).mp (h.index w) hw,
      (same_pending_iff h₁ hf hi w).mp (h.pending w) hw⟩
  · intro h
    refine ⟨fun w => (hf.ledger w).trans (hi.ledger w).symm, fun w => ?_, fun w => ?_⟩
    · exact (same_index_iff h₁ hf hi w).mpr fun hw => (h w hw).1
    · exact (same_pending_iff h₁ hf hi w).mpr fun hw => (h w hw).2

end

/-- **A full wantlist replaces everything, exactly when** no want of the ledger is left in the
index or in the queue.  The state of the peer is compared with the one after a message that
cancels all that is in its ledger and a message with the same entries that is not full. -/
theorem full_replaces_iff (merge : Task → Task → Task) (s : QueuedEngine) (p : PeerID) (m : Message)
    (hfull : m.full = true) (o o₁ o₂ o' : RangeOrder) (sch sch₁ : Schedule) :
    SameFor p (s.messageReceived merge p m o sch)
      ((s.messageReceived merge p (s.e.cancelAll p o₁) o₂ sch₁).messageReceived merge p
        m.incremental o' sch) ↔
      s.Replaces merge p m o sch := by
  have h₁ := emptied merge s p o₁ o₂ sch₁
  set s₁ := s.messageReceived merge p (s.e.cancelAll p o₁) o₂ sch₁
  have habort : s₁.e.readMessage p m.incremental o' sch = none ↔
      s.e.readMessage p m o sch = none := by
    rw [readMessage_eq_none, readMessage_eq_none]
    rfl
  rw [Replaces]
  cases hr : s.e.readMessage p m o sch with
  | none =>
      have hs : s.messageReceived merge p m o sch = s := by
        rw [messageReceived, Engine.messageReceived, hr]
        rfl
      have hs₁ : s₁.messageReceived merge p m.incremental o' sch = s₁ := by
        rw [messageReceived, Engine.messageReceived, habort.mpr hr]
        rfl
      rw [hs, hs₁]
      exact sameFor_emptied_iff h₁
  | some r =>
      obtain ⟨r', hr'⟩ := Option.ne_none_iff_exists'.mp (habort.not.mpr (by simp [hr]))
      exact sameFor_refilled_iff h₁ (refilled hr (.inl hfull)) (refilled hr' (.inr h₁.ledger))

/-- A peer has asked for a block and asks for it again, and for another one, with a full
wantlist: nothing is left to replace. -/
theorem full_replaces_asked_again :
    let w : Want := ⟨⟨[1]⟩, [65]⟩
    let w' : Want := ⟨⟨[2]⟩, [65]⟩
    let p : PeerID := ⟨[7]⟩
    let bs : AuthedBlockstore :=
      ⟨.ofContent ((∅ : GoMap Cid Bytes).insert ⟨[1]⟩ [10, 20]), fun _ _ _ _ => true⟩
    let s := (⟨newEngine bs 1024, fun _ _ => none⟩ : QueuedEngine).messageReceived TaskMerger.merge
      p (askFor w .wantBlock) .stored (.complete .stored)
    let m := (((Message.new true).addEntry w 1 .wantBlock true).1.addEntry w' 1 .wantBlock true).1
    m.full = true ∧ s.e.Wants p w ∧
      SameFor p (s.messageReceived TaskMerger.merge p m .stored (.complete .stored))
        ((s.messageReceived TaskMerger.merge p (s.e.cancelAll p .stored) .stored
          (.complete .stored)).messageReceived TaskMerger.merge p m.incremental .stored
            (.complete .stored)) := by
  intro w w' p bs s m
  refine ⟨by decide, by decide, ?_⟩
  refine (full_replaces_iff TaskMerger.merge s p m (by decide) _ _ _ _ _ _).mpr ?_
  let t : Task := ⟨w, 1, 2, ⟨2, true, true, true⟩⟩
  have hpending : s.pending p w = some t := by decide
  have htask : s.e.taskFor m w = some t := by decide
  obtain ⟨r, hr⟩ := readMessage_complete s.e p m .stored (s := .complete .stored) rfl
  rw [Replaces, hr]
  intro u hu
  have hkeys : (s.e.ledgerMap.lookup p).map (fun l => l.wantList.set.keys) = some [w] := by
    decide
  obtain rfl : u = w := by
    obtain ⟨l, hl, hu⟩ := hu
    rw [hl] at hkeys
    exact List.mem_singleton.mp (Option.some.inj hkeys ▸ AList.mem_keys.mp hu)
  refine ⟨fun _ => by decide, fun t' ht' => ⟨t, htask, ?_⟩⟩
  obtain rfl := Option.some.inj (hpending.symm.trans ht')
  decide

/-- A peer has asked for a block and asks, with a full wantlist, for another one: the index has
it for the first block still, and the task for it is still pending. -/
theorem replaced_want_stays :
    let w : Want := ⟨⟨[1]⟩, [65]⟩
    let w' : Want := ⟨⟨[2]⟩, [65]⟩
    let p : PeerID := ⟨[7]⟩
    let bs : AuthedBlockstore :=
      ⟨.ofContent ((∅ : GoMap Cid Bytes).insert ⟨[1]⟩ [10, 20]), fun _ _ _ _ => true⟩
    let s := (⟨newEngine bs 1024, fun _ _ => none⟩ : QueuedEngine).messageReceived TaskMerger.merge
      p (askFor w .wantBlock) .stored (.complete .stored)
    let m := ((Message.new true).addEntry w' 1 .wantBlock true).1
    let full := s.messageReceived TaskMerger.merge p m .stored (.complete .stored)
    let cancelled := (s.messageReceived TaskMerger.merge p (s.e.cancelAll p .stored) .stored
      (.complete .stored)).messageReceived TaskMerger.merge p m.incremental .stored
        (.complete .stored)
    (p ∈ full.e.peerLedger.peers .stored w ∧ full.pending p w ≠ none) ∧
      (p ∉ cancelled.e.peerLedger.peers .stored w ∧ cancelled.pending p w = none) ∧
      ¬ SameFor p full cancelled := by
  intro w w' p bs s m full cancelled
  have hfull : p ∈ full.e.peerLedger.peers .stored w := by decide
  have hcancelled : p ∉ cancelled.e.peerLedger.peers .stored w := by decide
  refine ⟨⟨hfull, by decide⟩, ⟨hcancelled, by decide⟩, fun h => ?_⟩
  rw [PeerLedger.mem_peers] at hfull hcancelled
  exact hcancelled ((h.index w).mp hfull)

end QueuedEngine

end BitswapAuth
