/-
# `BitswapAuth.MessageQueue.Bookkeeping` — the lists of a queue fit together

A queue has seven tables: for targeted and for broadcast wants the pending list, the sent
list and the times of sending, and the set of cancels.  Seven kinds of calls change them, with
the lock free in between.  In every state of every run

    cancels          no want of it is in any of the four lists
    sentAt           every key is in the sent list beside it
    bcstWants        holds want-haves only
    peerWants.sent   a want-block in it stays one until it is taken out

and a message that goes out has no entry that is both a want and a cancel.

What a step can do to the tables is said once, in `TableStep`, together with where it takes the run
loop; the invariant and the fate of a want-block are both read off it.
-/
import BitswapAuth.MessageQueue.Responses

namespace BitswapAuth

open Lib

/-! ## Messages without mixed entries -/

namespace Message

variable {m : Message} {c w : Want}

/-- The entry that `Cancel` makes for a want the message said nothing about. -/
def cancelEntry (w : Want) : Entry := ⟨w, 0, .wantBlock, true, false⟩

/-- An entry that cancels is nothing but a cancel: no want was merged into it. -/
def Unmixed (m : Message) : Prop :=
  ∀ w e, m.wantlist.lookup w = some e → e.cancel = true → e = cancelEntry w

theorem unmixed_of_clear (h : ∀ w, m.flag w = none) : m.Unmixed := by
  intro w e he
  have hw := h w
  rw [flag, he] at hw
  cases hw

theorem Unmixed.cancel (h : m.Unmixed) (hc : m.flag c ≠ some false) : (m.cancel c).1.Unmixed := by
  intro w e he hcancel
  rw [Message.cancel, addEntry'] at he
  split at he
  · rename_i e' he'
    rw [lookup_setEntry] at he
    split at he
    · rename_i hw
      have hflag : e'.cancel = true := by
        rw [flag, he'] at hc
        simpa using hc
      obtain rfl := h c e' he' hflag
      obtain rfl := Option.some.inj he
      rw [hw]
      rfl
    · exact h w e he hcancel
  · rw [lookup_setEntry] at he
    split at he
    · rename_i hw
      obtain rfl := Option.some.inj he
      rw [hw]
      rfl
    · exact h w e he hcancel

theorem Unmixed.addEntry (h : m.Unmixed) (hc : m.flag c ≠ some true) (p : Int32) (t : WantType)
    (d : Bool) : (m.addEntry c p t d).1.Unmixed := by
  intro w e he hcancel
  have hflag : (m.addEntry c p t d).1.flag w = some true := by
    rw [flag, he]
    exact congrArg some hcancel
  rw [flag_addEntry] at hflag
  split at hflag
  · -- an entry that was no cancel does not become one
    exfalso
    cases hm : m.flag c with
    | none =>
        rw [hm] at hflag
        cases hflag
    | some b =>
        rw [hm] at hflag
        exact hc (hm.trans hflag)
  · rename_i hw
    refine h w e ?_ hcancel
    rw [Message.addEntry, addEntry'] at he
    split at he <;> rwa [lookup_setEntry, if_neg hw] at he

theorem unmixed_foldl_cancel : ∀ (cs : List Want) {m : Message}, m.Unmixed →
    (∀ w, m.flag w ≠ some false) → (cs.foldl (fun m c => (m.cancel c).1) m).Unmixed
  | [], _, h, _ => h
  | c :: cs, m, h, hflag => by
      refine unmixed_foldl_cancel cs (h.cancel (hflag c)) fun w => ?_
      rw [flag_cancel]
      split
      · simp
      · exact hflag w

theorem unmixed_foldl_addEntry {add : Message → Wantlist.Entry → Message × Nat}
    (hadd : ∀ m e, ∃ p t d, add m e = m.addEntry e.want p t d) :
    ∀ (es : List Wantlist.Entry) {m : Message}, m.Unmixed →
      (∀ e ∈ es, m.flag e.want ≠ some true) → (es.foldl (fun m e => (add m e).1) m).Unmixed
  | [], _, h, _ => h
  | e :: es, m, h, hes => by
      obtain ⟨he, hes⟩ := List.forall_mem_cons.mp hes
      obtain ⟨p, t, d, heq⟩ := hadd m e
      rw [List.foldl_cons, heq]
      refine unmixed_foldl_addEntry hadd es (h.addEntry he p t d) fun e' he' => ?_
      rw [flag_addEntry]
      split
      · cases hm : m.flag e.want with
        | none => simp
        | some b => rwa [hm] at he
      · exact hes e' he'

end Message

namespace MessageQueue

/-- The message that a copy is made into has no mixed entry, since no want was copied both to be
asked for and to be cancelled. -/
theorem Copied.unmixed {s : Snapshot} (h : Copied s) (n : Nat) {msg : Message} (sup : Bool)
    (hmsg : ∀ w, msg.flag w = none) : (buildMessage n msg sup s).msg.Unmixed := by
  have hb := buildMessage_spec n sup s hmsg
  obtain ⟨cs, ps, bs, hcs, -, -, heq⟩ := buildMessage_eq n msg sup s
  rw [heq] at hb ⊢
  have hapart : ∀ e, e ∈ ps ∨ e ∈ bs → e.want ∉ cs := fun e he hc =>
    h.apart e (he.imp (hb.peer e) (hb.bcst e)) (hcs.subset hc)
  have hcancels := Message.unmixed_foldl_cancel cs (Message.unmixed_of_clear hmsg) (by simp [hmsg])
  have hpeer := @Message.unmixed_foldl_addEntry addPeerEntry (fun m e => ⟨_, _, _, rfl⟩) ps _
    hcancels fun e he => by
      rw [Message.flag_foldl_cancel, if_neg (hapart e (.inl he)), hmsg]
      simp
  refine Message.unmixed_foldl_addEntry (fun m e => ⟨_, _, _, rfl⟩) bs hpeer fun e he => ?_
  rw [@Message.flag_foldl_addEntry addPeerEntry (fun m e => ⟨_, _, _, rfl⟩),
    Message.flag_foldl_cancel, if_neg (hapart e (.inr he)), hmsg]
  split <;> simp

/-- Finishing takes entries out of the message and does nothing else to it. -/
theorem unmixed_finish {b : Built} (hb : Prepared b) (h : b.msg.Unmixed) (mq : MessageQueue) :
    (mq.finish b).2.Unmixed := by
  intro w e he
  rw [lookup_finish hb] at he
  split at he
  · cases he
  · exact h w e he

/-- What is marked as sent is not cancelled by the same message. -/
theorem flag_finish_ne {b : Built} (hb : Prepared b) (mq : MessageQueue) {e : Wantlist.Entry}
    (he : e ∈ b.sentPeerEntries ∨ e ∈ b.sentBcstEntries) :
    (mq.finish b).2.flag e.want ≠ some true := by
  have hask := hb.asks e he
  rw [Message.flag, lookup_finish hb]
  split
  · simp
  · rw [Message.flag] at hask
    simp [hask]

end MessageQueue

/-! ## The sent list and its times -/

namespace RecallWantlist

variable {r r' : RecallWantlist}

/-- The times are those of wants that are recorded as sent. -/
def TimesSent (r : RecallWantlist) : Prop := ∀ w ∈ r.sentAt, w ∈ r.sent

theorem TimesSent.remove (h : r.TimesSent) (c : Want) : (r.remove c).TimesSent := by
  intro w hw
  obtain ⟨hne, hw⟩ := AList.mem_erase.mp hw
  exact mem_sent_remove.mpr ⟨hne, h w hw⟩

theorem TimesSent.removeType (h : r.TimesSent) (c : Want) (t : WantType) :
    (r.removeType c t).TimesSent := by
  intro w hw
  have hsent : w ≠ c → w ∈ r.sentAt → w ∈ (r.removeType c t).sent := fun hne hw =>
    Wantlist.mem_removeType.mpr ⟨h w hw, fun he => absurd he hne⟩
  rw [RecallWantlist.removeType] at hw
  dsimp only at hw
  split at hw
  · rename_i hc
    by_cases hwc : w = c
    · exact hwc ▸ hc
    · exact hsent hwc hw
  · obtain ⟨hne, hw⟩ := AList.mem_erase.mp hw
    exact hsent hne hw

theorem TimesSent.markSent (h : r.TimesSent) (e : Wantlist.Entry) :
    (r.markSent e).1.TimesSent := by
  rw [RecallWantlist.markSent]
  split
  · exact h
  · intro w hw
    exact Wantlist.mem_add.mpr (.inr (h w hw))

theorem TimesSent.onSentEntry (h : r.TimesSent) (now : Time) (e : Wantlist.Entry) :
    (r.onSentEntry now e).TimesSent := by
  rw [RecallWantlist.onSentEntry]
  split
  · rw [recordSentAt]
    split
    · rename_i hsent
      split
      · exact h
      · intro w hw
        rcases (AList.mem_insert _).mp hw with rfl | hw
        · exact hsent
        · exact h w hw
    · exact h
  · exact h

theorem TimesSent.answer (h : r.TimesSent) (v : Int) (now : Time) (earliest : Option Time)
    (c : Want) : (r.answer v now earliest c).1.TimesSent := by
  rw [RecallWantlist.answer]
  split
  · exact h
  · intro w hw
    exact h w (AList.mem_erase.mp hw).2

/-- The two lists of wants, without the times. -/
def lists (r : RecallWantlist) : Wantlist × Wantlist := (r.pending, r.sent)

theorem lists_onSentEntry (now : Time) (r : RecallWantlist) (e : Wantlist.Entry) :
    (r.onSentEntry now e).lists = r.lists := by
  rw [onSentEntry]
  split
  · rw [recordSentAt]
    split
    · split <;> rfl
    · rfl
  · rfl

theorem lists_answer (v : Int) (now : Time) (r : RecallWantlist) (earliest : Option Time)
    (c : Want) : (r.answer v now earliest c).1.lists = r.lists := by
  rw [answer]
  split <;> rfl

end RecallWantlist

namespace MessageQueue

variable {mq mq' : MessageQueue}

/-- The times of both lists are those of wants that are recorded as sent. -/
structure Timed (mq : MessageQueue) : Prop where
  peer : mq.peerWants.TimesSent
  bcst : mq.bcstWants.TimesSent

theorem timed_add (h : mq.Timed) (a : Add) : (mq.add a).Timed := by
  cases a with
  | addWants bs hs =>
      have hone : ∀ t (mq : MessageQueue) c, mq.Timed → (mq.addWant t c).Timed :=
        fun _ _ _ h => ⟨h.peer, h.bcst⟩
      exact run_invariant (hone .wantBlock) bs (run_invariant (hone .wantHave) hs h)
  | addBroadcastWantHaves hs =>
      have hone : ∀ (mq : MessageQueue) c, mq.Timed → (mq.addBroadcastWantHave c).Timed :=
        fun _ _ h => ⟨h.peer, h.bcst⟩
      exact run_invariant hone hs h
  | addCancels ks =>
      have hone : ∀ (mq : MessageQueue) c, mq.Timed → (mq.addCancel c).Timed :=
        fun _ c h => ⟨h.peer.remove c, h.bcst.remove c⟩
      exact run_invariant hone ks h

theorem timed_transferRebroadcastWants (h : mq.Timed) (ob op : RangeOrder) :
    (mq.transferRebroadcastWants ob op).Timed := by
  rw [transferRebroadcastWants]
  split
  · exact h
  · exact ⟨h.peer, h.bcst⟩

theorem timed_snapshot (h : mq.Timed) (o : Orders) (sup : Bool) : (mq.snapshot o sup).1.Timed := by
  have hone : ∀ (r : RecallWantlist) e, r.TimesSent → (dropWantHave r e).TimesSent := by
    intro r e hr
    rw [dropWantHave]
    split
    · exact hr.removeType e.want .wantHave
    · exact hr
  cases sup with
  | true => exact h
  | false => exact ⟨run_invariant hone _ h.peer, h.bcst⟩

theorem timed_finish (h : mq.Timed) (b : Built) : (mq.finish b).1.Timed := by
  have hone : ∀ (s : RecallWantlist × Message) e, s.1.TimesSent →
      (finishEntry s e).1.TimesSent := by
    intro s e hs
    have hmark := hs.markSent e
    rw [finishEntry]
    split
    · rename_i heq
      rwa [heq] at hmark
    · exact hs
  let I : RecallWantlist × Message → Prop := fun s => s.1.TimesSent
  exact ⟨run_invariant (I := I) hone b.sentPeerEntries (s := (mq.peerWants, b.msg)) h.peer,
    run_invariant (I := I) hone b.sentBcstEntries (s := (mq.bcstWants, _)) h.bcst⟩

theorem timed_onSent (h : mq.Timed) (ps bs : List Wantlist.Entry) (now : Time) :
    (mq.onSent ps bs now).Timed := by
  have hone : ∀ (r : RecallWantlist) e, r.TimesSent → (r.onSentEntry now e).TimesSent :=
    fun _ e hr => hr.onSentEntry now e
  exact ⟨run_invariant hone ps h.peer, run_invariant hone bs h.bcst⟩

theorem timed_handleResponse (h : mq.Timed) (v : Int) (now : Time) (ks : List Want) :
    (mq.handleResponse v now ks).1.Timed := by
  have hone : ∀ (s : MessageQueue × Option Time) c, s.1.Timed → (handleKey v now s c).1.Timed :=
    fun _ c hs => ⟨hs.peer.answer v now _ c, hs.bcst.answer v now _ c⟩
  exact run_invariant (I := fun s => s.1.Timed) hone ks (s := (mq, none)) h

/-- What the invariant and the fate of a want-block see of a queue, the times apart. -/
def tables (mq : MessageQueue) : (Wantlist × Wantlist) × (Wantlist × Wantlist) × GoSet Want :=
  (mq.peerWants.lists, mq.bcstWants.lists, mq.cancels)

theorem Orderly.congr (h : mq.Orderly) (heq : mq'.tables = mq.tables) : mq'.Orderly := by
  simp only [tables, RecallWantlist.lists, Prod.mk.injEq] at heq
  obtain ⟨⟨hpp, hps⟩, ⟨hbp, hbs⟩, hc⟩ := heq
  refine ⟨fun w hw => ?_, hbp ▸ h.pending, hbs ▸ h.sent⟩
  rw [RecallWantlist.Tracks, RecallWantlist.Tracks, hpp, hps, hbp, hbs]
  exact h.apart w (hc ▸ hw)

theorem tables_onSent (mq : MessageQueue) (ps bs : List Wantlist.Entry) (now : Time) :
    (mq.onSent ps bs now).tables = mq.tables := by
  have hkeep := foldl_keeps RecallWantlist.lists (RecallWantlist.lists_onSentEntry now)
  rw [tables, onSent, hkeep, hkeep, tables]

theorem tables_handleResponse (mq : MessageQueue) (v : Int) (now : Time) (ks : List Want) :
    (mq.handleResponse v now ks).1.tables = mq.tables := by
  have hone : ∀ (s : MessageQueue × Option Time) c,
      (handleKey v now s c).1.tables = s.1.tables := by
    intro s c
    rw [handleKey, tables]
    dsimp only
    rw [RecallWantlist.lists_answer, RecallWantlist.lists_answer, tables]
  exact foldl_keeps (fun s : MessageQueue × Option Time => s.1.tables) hone ks (mq, none)

end MessageQueue

/-! ## What a step can do -/

namespace QueueLoop

open MessageQueue

/-- What is known where the loop is: while it has no message the reused one says nothing, what
it copied has no want on both sides, and what it is about to send has no mixed entry. -/
def Allows : QueueLoop → Message → Prop
  | .building _ snap, msg => (∀ w, msg.flag w = none) ∧ Copied snap
  | .sending peerEntries bcstEntries message, _ =>
      message.Unmixed ∧
        ∀ e, e ∈ peerEntries ∨ e ∈ bcstEntries → message.flag e.want ≠ some true
  | .sent .., _ | .simulating _, _ | .adding _, _ | .enqueuing, _ => True
  | .select, msg | .extracting, msg | .responding .., msg | .measured _, msg | .stopped, msg =>
      ∀ w, msg.flag w = none

end QueueLoop

namespace MessageQueue

variable {mq mq' : MessageQueue}

/-- The message of a copy, and what it is filled with. -/
def build (mq : MessageQueue) (supportsHave : Bool) (snap : Snapshot) : Built :=
  buildMessage mq.maxMessageSize mq.msg supportsHave snap

/-- **What one step can do** to the queue, and where it takes the loop. -/
inductive TableStep (mq : MessageQueue) : QueueLoop → MessageQueue → QueueLoop → Prop where
  | add (a : Add) (l : QueueLoop) : TableStep mq l (mq.add a) l
  | move {l l' : QueueLoop} (hl : ∀ msg, l.Allows msg → l'.Allows msg) : TableStep mq l mq l'
  | rebroadcast (ob op : RangeOrder) {l : QueueLoop}
      (hl : ∀ msg, QueueLoop.select.Allows msg → l.Allows msg) :
      TableStep mq .select (mq.transferRebroadcastWants ob op) l
  | snapshot (o : Orders) (sup : Bool) :
      TableStep mq .extracting (mq.snapshot o sup).1 (.building sup (mq.snapshot o sup).2)
  | finish (sup : Bool) (snap : Snapshot) :
      TableStep mq (.building sup snap) (mq.finish (mq.build sup snap)).1
        (.sending (mq.peerWants.marked (mq.build sup snap).sentPeerEntries)
          (mq.bcstWants.marked (mq.build sup snap).sentBcstEntries)
          (mq.finish (mq.build sup snap)).2)
  | discard (sup : Bool) (snap : Snapshot) (full : Bool) :
      TableStep mq (.building sup snap)
        { (mq.finish (mq.build sup snap)).1 with
          msg := (mq.finish (mq.build sup snap)).1.msg.reset full } .select
  | onSent (ps bs : List Wantlist.Entry) (message : Message) (now : Time) :
      TableStep mq (.sent ps bs message now) (mq.onSent ps bs now) (.simulating message)
  | record (v : Int) (ks : List Want) (now : Time) {l : QueueLoop}
      (hl : ∀ msg, (QueueLoop.responding ks now).Allows msg → l.Allows msg) :
      TableStep mq (.responding ks now) (mq.handleResponse v now ks).1 l
  | reset (l : QueueLoop) (full : Bool) :
      TableStep mq l { mq with msg := mq.msg.reset full } .select

/-- What holds of a queue and its loop in every state. -/
structure Sound (mq : MessageQueue) (l : QueueLoop) : Prop where
  orderly : mq.Orderly
  timed : mq.Timed
  loop : l.Allows mq.msg

theorem msg_handleResponse (mq : MessageQueue) (v : Int) (now : Time) (ks : List Want) :
    (mq.handleResponse v now ks).1.msg = mq.msg :=
  foldl_keeps (fun s : MessageQueue × Option Time => s.1.msg) (f := handleKey v now)
    (fun _ _ => rfl) ks (mq, none)

/-- The finishing section on a message that was built from a copy. -/
theorem Sound.finish {sup : Bool} {snap : Snapshot} (h : mq.Sound (.building sup snap)) :
    Prepared (mq.build sup snap) ∧ (mq.finish (mq.build sup snap)).1.Orderly ∧
      (mq.finish (mq.build sup snap)).1.Timed := by
  have hb : Prepared (mq.build sup snap) := h.loop.2.prepared _ sup h.loop.1
  exact ⟨hb, orderly_finish hb h.orderly, timed_finish h.timed _⟩

theorem TableStep.sound {l l' : QueueLoop} (hc : TableStep mq l mq' l') (h : mq.Sound l) :
    mq'.Sound l' := by
  cases hc with
  | add a l =>
      refine ⟨orderly_add h.orderly a, timed_add h.timed a, ?_⟩
      rw [msg_add]
      exact h.loop
  | move hl => exact ⟨h.orderly, h.timed, hl _ h.loop⟩
  | rebroadcast ob op hl =>
      refine ⟨orderly_transferRebroadcastWants h.orderly ob op,
        timed_transferRebroadcastWants h.timed ob op, hl _ ?_⟩
      rw [msg_transferRebroadcastWants]
      exact h.loop
  | snapshot o sup =>
      refine ⟨orderly_snapshot h.orderly o sup, timed_snapshot h.timed o sup, ?_,
        copied_snapshot h.orderly o sup⟩
      rw [(snapshot_spec mq o sup).msg]
      exact h.loop
  | finish sup snap =>
      obtain ⟨hb, ho, ht⟩ := h.finish
      refine ⟨ho, ht, unmixed_finish hb (h.loop.2.unmixed _ sup h.loop.1) mq, fun e he => ?_⟩
      rw [RecallWantlist.marked_eq_filter _ _ hb.peer,
        RecallWantlist.marked_eq_filter _ _ hb.bcst] at he
      exact flag_finish_ne hb mq (he.imp List.mem_of_mem_filter List.mem_of_mem_filter)
  | discard sup snap full =>
      obtain ⟨-, ho, ht⟩ := h.finish
      exact ⟨ho.congr rfl, ⟨ht.peer, ht.bcst⟩, fun _ => rfl⟩
  | onSent ps bs message now =>
      exact ⟨h.orderly.congr (tables_onSent mq ps bs now), timed_onSent h.timed ps bs now, trivial⟩
  | record v ks now hl =>
      refine ⟨h.orderly.congr (tables_handleResponse mq v now ks),
        timed_handleResponse h.timed v now ks, hl _ ?_⟩
      rw [msg_handleResponse]
      exact h.loop
  | reset l full => exact ⟨h.orderly.congr rfl, ⟨h.timed.peer, h.timed.bcst⟩, fun _ => rfl⟩

end MessageQueue

/-! ## The fate of a want-block -/

theorem Wantlist.lookup_of_delete {l : Wantlist} {c w : Want} {e : Entry}
    (h : (l.delete c).set.lookup w = some e) : l.set.lookup w = some e :=
  (GoMap.lookup_erase_eq_some.mp h).2

theorem Wantlist.lookup_of_remove {l : Wantlist} {c w : Want} {e : Entry}
    (h : (l.remove c).1.set.lookup w = some e) : l.set.lookup w = some e := by
  rw [remove] at h
  split at h
  · exact lookup_of_delete h
  · exact h

theorem Wantlist.lookup_of_removeType {l : Wantlist} {c w : Want} {t : WantType} {e : Entry}
    (h : (l.removeType c t).1.set.lookup w = some e) : l.set.lookup w = some e := by
  rw [removeType] at h
  split at h
  · exact h
  · split at h
    · exact h
    · exact lookup_of_delete h

namespace RecallWantlist

variable {r r' : RecallWantlist} {w : Want}

/-- Nothing is recorded as sent that was not. -/
def Shrinks (r r' : RecallWantlist) : Prop :=
  ∀ w e, r'.sent.set.lookup w = some e → r.sent.set.lookup w = some e

theorem Shrinks.of_eq (h : r'.sent = r.sent) : Shrinks r r' := fun _ _ he => h ▸ he

theorem Shrinks.block (h : Shrinks r r') (hb : r.sent.HoldsBlock w) (hw : w ∈ r'.sent) :
    r'.sent.HoldsBlock w := by
  obtain ⟨e, he, ht⟩ := hb
  obtain ⟨e', he'⟩ := Wantlist.mem_iff.mp hw
  obtain rfl := Option.some.inj (he.symm.trans (h w e' he'))
  exact ⟨e, he', ht⟩

end RecallWantlist

namespace MessageQueue

open RecallWantlist (Shrinks)

variable {mq mq' : MessageQueue} {w : Want}

theorem shrinks_add (mq : MessageQueue) (a : Add) : Shrinks mq.peerWants (mq.add a).peerWants := by
  cases a with
  | addWants bs hs =>
      have hkeep : ∀ t (ks : List Want) (mq : MessageQueue),
          (ks.foldl (addWant t) mq).peerWants.sent = mq.peerWants.sent := fun t =>
        foldl_keeps (fun mq : MessageQueue => mq.peerWants.sent) (f := addWant t) fun _ _ => rfl
      exact .of_eq ((hkeep .wantBlock bs _).trans (hkeep .wantHave hs mq))
  | addBroadcastWantHaves hs =>
      exact .of_eq (foldl_keeps (fun mq : MessageQueue => mq.peerWants.sent)
        (f := addBroadcastWantHave) (fun _ _ => rfl) hs mq)
  | addCancels ks =>
      have hone : ∀ (mq' : MessageQueue) c, Shrinks mq.peerWants mq'.peerWants →
          Shrinks mq.peerWants (mq'.addCancel c).peerWants :=
        fun _ _ h w e he => h w e (Wantlist.lookup_of_remove he)
      exact run_invariant hone ks (.of_eq rfl)

theorem shrinks_snapshot (mq : MessageQueue) (o : Orders) (sup : Bool) :
    Shrinks mq.peerWants (mq.snapshot o sup).1.peerWants := by
  have hone : ∀ (r : RecallWantlist) e, Shrinks mq.peerWants r →
      Shrinks mq.peerWants (dropWantHave r e) := by
    intro r e h
    rw [dropWantHave]
    split
    · exact fun w e' he' => h w e' (Wantlist.lookup_of_removeType he')
    · exact h
  cases sup with
  | true => exact .of_eq rfl
  | false => exact run_invariant hone _ (.of_eq rfl)

theorem holdsBlock_finish (h : mq.peerWants.sent.HoldsBlock w) (b : Built) :
    (mq.finish b).1.peerWants.sent.HoldsBlock w := by
  have hone : ∀ (s : RecallWantlist × Message) e, s.1.sent.HoldsBlock w →
      (finishEntry s e).1.sent.HoldsBlock w := by
    intro s e hs
    rw [finishEntry, RecallWantlist.markSent]
    split
    · rename_i heq
      split at heq
      · cases heq
      · obtain ⟨rfl, -⟩ := Prod.mk.inj heq
        exact hs.add e.want e.priority e.wantType
    · exact hs
  exact run_invariant (I := fun s => s.1.sent.HoldsBlock w) hone b.sentPeerEntries
    (s := (mq.peerWants, b.msg)) h

/-- A want-block that is recorded as sent stays one through a step, or is gone after it. -/
theorem TableStep.block {l l' : QueueLoop} (hc : TableStep mq l mq' l')
    (h : mq.peerWants.sent.HoldsBlock w) (hw : w ∈ mq'.peerWants.sent) :
    mq'.peerWants.sent.HoldsBlock w := by
  cases hc with
  | add a l => exact (shrinks_add mq a).block h hw
  | move hl => exact h
  | rebroadcast ob op hl =>
      rw [transferRebroadcastWants]
      split <;> exact h
  | snapshot o sup => exact (shrinks_snapshot mq o sup).block h hw
  | finish sup snap => exact holdsBlock_finish h _
  | discard sup snap full => exact holdsBlock_finish h _
  | onSent ps bs message now =>
      have htables := tables_onSent mq ps bs now
      simp only [tables, RecallWantlist.lists, Prod.mk.injEq] at htables
      rwa [htables.1.2]
  | record v ks now hl =>
      have htables := tables_handleResponse mq v now ks
      simp only [tables, RecallWantlist.lists, Prod.mk.injEq] at htables
      rwa [htables.1.2]
  | reset l full => exact h

end MessageQueue

/-! ## Runs -/

namespace TimedQueue

open MessageQueue

variable {s : TimedQueue}

theorem tableStep_beginSend {mq : MessageQueue} (hs : s.loop = .select)
    (hc : ∀ l, (∀ msg, QueueLoop.select.Allows msg → l.Allows msg) → TableStep mq .select s.mq l)
    (conn : Option Int) : TableStep mq s.loop (s.beginSend conn).mq (s.beginSend conn).loop := by
  cases conn with
  | none =>
      show TableStep mq s.loop s.mq s.loop
      rw [hs]
      exact hc _ fun _ h => h
  | some latency => exact hs ▸ hc .extracting fun _ h => h

theorem Steps.table {a : Act} {s' : TimedQueue} (hs : s.Steps a s') :
    TableStep s.mq s.loop s'.mq s'.loop := by
  have move : ∀ l : QueueLoop, (∀ msg, s.loop.Allows msg → l.Allows msg) →
      TableStep s.mq s.loop s.mq l := fun _ => .move
  cases hs with
  | stay | cancels _ | received _ | shutdown | stops _ | manager _ => exact .move fun _ h => h
  | called b _ => exact .add b s.loop
  | sends hl conn => exact tableStep_beginSend hl (fun _ => .move) conn
  | rebroadcasts hl ob op conn =>
      exact tableStep_beginSend (s := { s with mq := s.mq.transferRebroadcastWants ob op }) hl
        (fun _ => .rebroadcast ob op) conn
  | copies hl o sup => exact hl ▸ .snapshot o sup
  | discards hl => exact hl ▸ .discard _ _ false
  | finishes hl hb =>
      subst hb
      exact hl ▸ .finish _ _
  | sent hl => exact move (.sent ..) fun _ _ => trivial
  | failed hl => exact .reset _ false
  | notes hl => exact hl ▸ .onSent ..
  | simulates hl o => exact move (.adding _) fun _ _ => trivial
  | ends hl => exact .reset _ false
  | adds hl => exact move .enqueuing fun _ _ => trivial
  | enqueues hl => exact .reset _ false
  | handles hl hr => exact move (.responding ..) fun _ h => (hl ▸ h :)
  | @records ks now loop hl hloop =>
      rw [hl]
      refine .record s.maxValidLatency ks now fun _ h => ?_
      rcases hloop with rfl | ⟨elapsed, rfl⟩ <;> exact h
  | measures hl => exact move .select fun _ h => (hl ▸ h :)
  | exits hl hdone => exact move .stopped fun _ h => (hl ▸ h :)

theorem tableStep (s : TimedQueue) (a : Act) :
    TableStep s.mq s.loop (s.step a).mq (s.step a).loop :=
  (s.steps_step a).table

/-- What holds of the tables in every state, and of the message that is about to be sent. -/
structure Books (s : TimedQueue) : Prop where
  cancels : ∀ w ∈ s.mq.cancels, (w ∉ s.mq.peerWants.pending ∧ w ∉ s.mq.peerWants.sent) ∧
    w ∉ s.mq.bcstWants.pending ∧ w ∉ s.mq.bcstWants.sent
  peerTimes : ∀ w ∈ s.mq.peerWants.sentAt, w ∈ s.mq.peerWants.sent
  bcstTimes : ∀ w ∈ s.mq.bcstWants.sentAt, w ∈ s.mq.bcstWants.sent
  haves : s.mq.bcstWants.pending.Haves ∧ s.mq.bcstWants.sent.Haves
  message : ∀ peerEntries bcstEntries message, s.loop = .sending peerEntries bcstEntries message →
    message.Unmixed ∧
      ∀ e, e ∈ peerEntries ∨ e ∈ bcstEntries → message.flag e.want ≠ some true

theorem books_of_sound (h : s.mq.Sound s.loop) : s.Books where
  cancels w hw := by
    obtain ⟨hp, hb⟩ := h.orderly.apart w hw
    exact ⟨not_or.mp hp, not_or.mp hb⟩
  peerTimes := h.timed.peer
  bcstTimes := h.timed.bcst
  haves := ⟨h.orderly.pending, h.orderly.sent⟩
  message ps bs m hl := by
    have hloop := h.loop
    rw [hl] at hloop
    exact hloop

theorem sound_run (n : Nat) (v : Int) (p : TimeoutParams) (acts : List Act) :
    (run step (init n v p) acts).mq.Sound (run step (init n v p) acts).loop := by
  have hnew : (init n v p).mq.Sound (init n v p).loop :=
    ⟨orderly_new n, ⟨fun w hw => absurd hw (AList.notMem_empty w),
      fun w hw => absurd hw (AList.notMem_empty w)⟩, fun _ => rfl⟩
  exact run_invariant (I := fun s => s.mq.Sound s.loop) (fun s a h => (tableStep s a).sound h) acts
    hnew

/-- As long as a want is recorded as sent, a want-block stays one. -/
theorem holdsBlock_run {w : Want} : ∀ (acts : List Act) {s : TimedQueue},
    s.mq.peerWants.sent.HoldsBlock w → Always step (fun s => w ∈ s.mq.peerWants.sent) s acts →
      (run step s acts).mq.peerWants.sent.HoldsBlock w
  | [], _, h, _ => h
  | a :: acts, s, h, hin => holdsBlock_run acts ((tableStep s a).block h hin.2.head) hin.2

/-- **The books of a queue.**  In every state that a queue reaches, however its calls, its loop
and the peer's responses interleave, the tables fit together and the message that is about to be
sent has no entry that is both a want and a cancel; and from there on a want-block that is
recorded as sent is one for as long as it is recorded. -/
theorem books_run (maxMsgSize : Nat) (maxValidLatency : Int) (p : TimeoutParams)
    (acts : List Act) :
    let s := run step (init maxMsgSize maxValidLatency p) acts
    s.Books ∧ ∀ w, s.mq.peerWants.sent.HoldsBlock w → ∀ more : List Act,
      Always step (fun s => w ∈ s.mq.peerWants.sent) s more →
        (run step s more).mq.peerWants.sent.HoldsBlock w :=
  ⟨books_of_sound (sound_run maxMsgSize maxValidLatency p acts),
    fun _ hw more hin => holdsBlock_run more hw hin⟩

end TimedQueue

end BitswapAuth
