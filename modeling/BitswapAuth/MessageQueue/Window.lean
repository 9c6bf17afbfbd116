/-
# `BitswapAuth.MessageQueue.Window` — calls between the two locked sections

While `extractOutgoingMessage` fills the message the lock is free, and any calls of
`AddWants`, `AddBroadcastWantHaves` and `AddCancels` may come in.  At `FINISH`
three loops go over what went into the message.  An entry that changed
meanwhile is taken out of the message and not marked as sent; the other entries
are marked as sent and stay.

A want can be in the message for two reasons, as a targeted want and as a
broadcast, and the message has one entry for both.  When the window has changed
the want in one list only, one loop marks it as sent and the other takes the
shared entry out.  `sentAsMarked_iff` says that this is all that can go wrong:
what is marked as sent is in the message just when the two lists agree about
every want that went in twice.
-/
import BitswapAuth.MessageQueue.Remote

namespace BitswapAuth

open Lib

/-! ## Marking as sent -/

namespace RecallWantlist

variable {r : RecallWantlist} {e e' : Wantlist.Entry}

/-- The entry is pending as it was copied, so that `MarkSent` would succeed. -/
def Pends (r : RecallWantlist) (e : Wantlist.Entry) : Prop :=
  (r.pending.removeType e.want e.wantType).2 = true

instance (r : RecallWantlist) (e : Wantlist.Entry) : Decidable (r.Pends e) :=
  inferInstanceAs (Decidable (_ = true))

theorem snd_markSent : (r.markSent e).2 = true ↔ r.Pends e := by
  rw [Pends, markSent]
  split
  · rename_i h; simp [h]
  · rename_i h; simp [h]

theorem markSent_of_not_pends (h : ¬ r.Pends e) : r.markSent e = (r, false) := by
  rcases r.markSent_cases e with h' | ⟨r', h', -⟩
  · exact h'
  · exact absurd (snd_markSent.mp (congrArg Prod.snd h')) h

theorem pends_markSent (hne : e'.want ≠ e.want) : (r.markSent e).1.Pends e' ↔ r.Pends e' := by
  by_cases h : r.Pends e
  · have hpending : (r.markSent e).1.pending = (r.pending.removeType e.want e.wantType).1 := by
      have h' := snd_markSent.mpr h
      rw [markSent] at h' ⊢
      split at h'
      · cases h'
      · rename_i heq; rw [heq]
    rw [Pends, Pends, hpending, Wantlist.removeType_snd, Wantlist.removeType_snd,
      Wantlist.lookup_removeType_of_ne hne]
  · rw [markSent_of_not_pends h]

theorem want_ne_of_nodup {es : List Wantlist.Entry} (hnd : ((e :: es).map (·.want)).Nodup)
    (he' : e' ∈ es) : e'.want ≠ e.want := by
  intro h
  have hmem : e'.want ∈ es.map (·.want) := List.mem_map_of_mem he'
  exact (List.nodup_cons.mp hnd).1 (by rwa [h] at hmem)

/-- The entries that a loop over `MarkSent` moves to the sent list. -/
def marked : RecallWantlist → List Wantlist.Entry → List Wantlist.Entry
  | _, [] => []
  | r, e :: es =>
      match r.markSent e with
      | (r', true) => e :: marked r' es
      | (_, false) => marked r es

/-- Of entries of different wants those are moved that are pending at the start. -/
theorem marked_eq_filter : ∀ (es : List Wantlist.Entry) (r : RecallWantlist),
    (es.map (·.want)).Nodup → r.marked es = es.filter fun e => r.Pends e
  | [], _, _ => rfl
  | e :: es, r, hnd => by
      have hpends : ∀ e' ∈ es, ((r.markSent e).1.Pends e' ↔ r.Pends e') := fun e' he' =>
        pends_markSent (want_ne_of_nodup hnd he')
      obtain ⟨-, hnd⟩ := List.nodup_cons.mp hnd
      rw [marked]
      split
      · rename_i r' h
        have hp : r.Pends e := snd_markSent.mp (congrArg Prod.snd h)
        rw [List.filter_cons_of_pos (by simpa using hp), marked_eq_filter es r' hnd]
        refine congrArg (e :: ·) (List.filter_congr fun e' he' => ?_)
        have h' := hpends e' he'
        rw [h] at h'
        exact decide_eq_decide.mpr h'
      · rename_i h
        have hp : ¬ r.Pends e := fun hp => by
          have h' := snd_markSent.mpr hp
          rw [h] at h'
          cases h'
        rw [List.filter_cons_of_neg (by simpa using hp), marked_eq_filter es r hnd]

end RecallWantlist

/-! ## The message while it is filled -/

namespace Message

variable {m : Message} {c w : Want} {p : Int32} {t : WantType} {d : Bool}

/-- The message has an entry for the want, a want-block. -/
def HoldsBlock (m : Message) (w : Want) : Prop :=
  ∃ e, m.wantlist.lookup w = some e ∧ e.wantType = .wantBlock

theorem holdsBlock_addEntry_self (h : m.flag w = none) :
    (m.addEntry w p .wantBlock d).1.HoldsBlock w := by
  have hw : m.wantlist.lookup w = none := Option.map_eq_none_iff.mp h
  rw [addEntry, addEntry']
  split
  · rename_i e he; rw [hw] at he; cases he
  · exact ⟨_, by rw [lookup_setEntry, if_pos rfl], rfl⟩

theorem holdsBlock_addEntry (h : m.HoldsBlock w) : (m.addEntry c p t d).1.HoldsBlock w := by
  obtain ⟨e, he, ht⟩ := h
  rw [addEntry, addEntry']
  by_cases hw : w = c
  · subst hw
    split
    · rename_i e' he'
      obtain rfl : e = e' := Option.some.inj (he.symm.trans he')
      refine ⟨e.merge p false t d, by rw [lookup_setEntry, if_pos rfl], ?_⟩
      simp [Entry.merge, ht]
    · rename_i he'; rw [he] at he'; cases he'
  · refine ⟨e, ?_, ht⟩
    split
    · rw [lookup_setEntry, if_neg hw, he]
    · rw [lookup_setEntry, if_neg hw, he]

end Message

namespace MessageQueue

theorem holdsBlock_foldl {add : Message → Wantlist.Entry → Message × Nat}
    (hadd : ∀ m e, ∃ p t d, add m e = m.addEntry e.want p t d) {w : Want} :
    ∀ (es : List Wantlist.Entry) {m : Message}, m.HoldsBlock w →
      (es.foldl (fun m e => (add m e).1) m).HoldsBlock w
  | [], _, h => h
  | e :: es, m, h => by
      obtain ⟨p, t, d, heq⟩ := hadd m e
      refine holdsBlock_foldl hadd es (m := (add m e).1) ?_
      rw [heq]
      exact Message.holdsBlock_addEntry h

/-- A targeted want-block that the message said nothing about goes in as one. -/
theorem holdsBlock_foldl_addPeerEntry : ∀ (es : List Wantlist.Entry) {m : Message},
    (es.map (·.want)).Nodup → (∀ e ∈ es, m.flag e.want = none) →
      ∀ e ∈ es, e.wantType = .wantBlock →
        (es.foldl (fun m e => (addPeerEntry m e).1) m).HoldsBlock e.want
  | [], _, _, _, _, he, _ => by cases he
  | e₀ :: es, m, hnd, hm, e, he, ht => by
      have hne : ∀ e' ∈ es, e'.want ≠ e₀.want :=
        fun e' he' => RecallWantlist.want_ne_of_nodup hnd he'
      obtain ⟨-, hnd⟩ := List.nodup_cons.mp hnd
      rw [List.foldl_cons]
      rcases List.mem_cons.mp he with rfl | he
      · refine holdsBlock_foldl (fun m e => ⟨_, _, _, rfl⟩) es ?_
        rw [addPeerEntry, ht]
        exact Message.holdsBlock_addEntry_self (hm e List.mem_cons_self)
      · refine holdsBlock_foldl_addPeerEntry es hnd (fun e' he' => ?_) e he ht
        rw [addPeerEntry, Message.flag_addEntry, if_neg (hne e' he')]
        exact hm e' (List.mem_cons_of_mem _ he')

/-- What is known of a message when the lock is taken again: no want went in twice for
the same reason, wants went in as wants and cancels as cancels, targeted want-blocks as
want-blocks, and the broadcast wants are want-haves. -/
structure Prepared (b : Built) : Prop where
  peer : (b.sentPeerEntries.map (·.want)).Nodup
  bcst : (b.sentBcstEntries.map (·.want)).Nodup
  cancels : b.sentCancels.Nodup
  asks : ∀ e, e ∈ b.sentPeerEntries ∨ e ∈ b.sentBcstEntries → b.msg.flag e.want = some false
  tells : ∀ c ∈ b.sentCancels, b.msg.flag c = some true
  blocks : ∀ e ∈ b.sentPeerEntries, e.wantType = .wantBlock → b.msg.HoldsBlock e.want
  haves : ∀ e ∈ b.sentBcstEntries, e.wantType = .wantHave

/-- What holds of a queue while any of its calls may come: no want is both recorded and about
to be cancelled, and the broadcast wants are want-haves. -/
structure Orderly (mq : MessageQueue) : Prop where
  apart : mq.Apart
  pending : mq.bcstWants.pending.Haves
  sent : mq.bcstWants.sent.Haves

/-- What holds of a queue between calls. -/
structure Steady (mq : MessageQueue) : Prop extends Orderly mq where
  clear : mq.Clear

/-- What is known of a copy of the pending wants, however long ago it was made. -/
structure Copied (s : Snapshot) : Prop where
  peer : (s.peerEntries.map (·.want)).Nodup
  bcst : (s.bcstEntries.map (·.want)).Nodup
  cancels : s.cancels.Nodup
  apart : ∀ e, e ∈ s.peerEntries ∨ e ∈ s.bcstEntries → e.want ∉ s.cancels
  haves : ∀ e ∈ s.bcstEntries, e.wantType = .wantHave

/-- The broadcast entries are copied whether or not the peer knows HAVE. -/
theorem bcstEntries_snapshot (mq : MessageQueue) (o : Orders) (sup : Bool) :
    (mq.snapshot o sup).2.bcstEntries = mq.bcstWants.pending.entries o.bcst := by
  cases sup <;> rfl

theorem copied_snapshot {mq : MessageQueue} (h : mq.Orderly) (o : Orders) (sup : Bool) :
    Copied (mq.snapshot o sup).2 := by
  have hs := snapshot_spec mq o sup
  refine ⟨?_, ?_, hs.copied.1, ?_, fun e he => ?_⟩
  · cases sup with
    | true => exact Wantlist.nodup_entries
    | false => exact Wantlist.nodup_entries.sublist (List.filter_sublist.map _)
  · rw [bcstEntries_snapshot]
    exact Wantlist.nodup_entries
  · rintro e he hc
    have hap := h.apart e.want (hs.copied.2 _ hc)
    rcases he with he | he
    · exact hap.1 (.inl (Wantlist.mem_iff.mpr ⟨e, (hs.peer e he).1⟩))
    · exact hap.2 (.inl (hs.bcst e he))
  · rw [bcstEntries_snapshot] at he
    exact h.pending e.want e (Wantlist.mem_entries.mp he)

theorem Copied.prepared {s : Snapshot} (h : Copied s) (n : Nat) {msg : Message} (sup : Bool)
    (hmsg : ∀ w, msg.flag w = none) : Prepared (buildMessage n msg sup s) := by
  have hb := buildMessage_spec n sup s hmsg
  obtain ⟨cs, ps, bs, hcs, ⟨k, hps⟩, ⟨k', hbs⟩, heq⟩ := buildMessage_eq n msg sup s
  rw [heq] at hb ⊢
  have hapart : ∀ e, e ∈ ps ∨ e ∈ bs → e.want ∉ cs := fun e he hc =>
    h.apart e (he.imp (hb.peer e) (hb.bcst e)) (hcs.subset hc)
  have hnd : (ps.map (·.want)).Nodup :=
    (((sortIfNeeded_perm _ k _).map _).nodup_iff.mpr h.peer).sublist (hps.sublist.map _)
  have hnd' : (bs.map (·.want)).Nodup :=
    (((sortIfNeeded_perm _ k' _).map _).nodup_iff.mpr h.bcst).sublist (hbs.sublist.map _)
  refine ⟨hnd, hnd', h.cancels.sublist hcs.sublist, fun e he => ?_, fun c hc => ?_, ?_,
    fun e he => h.haves e (hb.bcst e he)⟩
  · have hmem : e.want ∈ ps.map (·.want) ∨ e.want ∈ bs.map (·.want) :=
      he.imp (List.mem_map_of_mem ·) (List.mem_map_of_mem ·)
    exact (hb.flag e.want).trans ((if_neg (hapart e he)).trans (if_pos hmem))
  · exact (hb.flag c).trans (if_pos hc)
  · intro e he ht
    refine holdsBlock_foldl (fun m e => ⟨_, _, _, rfl⟩) bs ?_
    refine holdsBlock_foldl_addPeerEntry ps hnd (fun e' he' => ?_) e he ht
    rw [Message.flag_foldl_cancel, if_neg (hapart e' (.inl he')), hmsg]

/-! ## The finishing section -/

/-- An entry leaves the message in its loop just if it does not pend any more. -/
theorem lookup_foldl_finishEntry : ∀ (es : List Wantlist.Entry) (r : RecallWantlist)
    (m : Message) (w : Want), (es.map (·.want)).Nodup →
      (es.foldl finishEntry (r, m)).2.wantlist.lookup w =
        if ∃ e ∈ es, e.want = w ∧ ¬ r.Pends e then none else m.wantlist.lookup w
  | [], r, m, w, _ => by simp
  | e :: es, r, m, w, hnd => by
      have hrest : (∃ e' ∈ es, e'.want = w ∧ ¬ (r.markSent e).1.Pends e') ↔
          ∃ e' ∈ es, e'.want = w ∧ ¬ r.Pends e' := by
        refine exists_congr fun e' => and_congr_right fun he' => and_congr_right fun _ => ?_
        exact not_congr (RecallWantlist.pends_markSent (RecallWantlist.want_ne_of_nodup hnd he'))
      obtain ⟨-, hnd⟩ := List.nodup_cons.mp hnd
      rw [List.foldl_cons]
      by_cases hp : r.Pends e
      · have hfin : finishEntry (r, m) e = ((r.markSent e).1, m) := by
          have h := RecallWantlist.snd_markSent.mpr hp
          rw [finishEntry]
          split
          · rename_i heq; rw [heq]
          · rename_i heq; rw [heq] at h; cases h
        rw [hfin, lookup_foldl_finishEntry es _ m w hnd]
        simp only [hrest, List.mem_cons, exists_eq_or_imp, hp, not_true_eq_false, and_false,
          false_or]
      · have hfin : finishEntry (r, m) e = (r, m.remove e.want) := by
          rw [finishEntry, RecallWantlist.markSent_of_not_pends hp]
        rw [hfin, lookup_foldl_finishEntry es r _ w hnd, Message.lookup_wantlist_remove]
        by_cases hw : e.want = w
        · subst hw; simp [hp]
        · simp [hw, Ne.symm hw]

/-- The entries of the message that goes out: those that no loop took out. -/
theorem lookup_finish {b : Built} (hb : Prepared b) (mq : MessageQueue) (w : Want) :
    (mq.finish b).2.wantlist.lookup w =
      if (w ∈ b.sentCancels ∧ w ∉ mq.cancels) ∨
          (∃ e ∈ b.sentBcstEntries, e.want = w ∧ ¬ mq.bcstWants.Pends e) ∨
          ∃ e ∈ b.sentPeerEntries, e.want = w ∧ ¬ mq.peerWants.Pends e then none
      else b.msg.wantlist.lookup w := by
  have hc := (foldl_finishCancel_spec b.sentCancels mq.cancels
    (b.sentBcstEntries.foldl finishEntry (mq.bcstWants,
      (b.sentPeerEntries.foldl finishEntry (mq.peerWants, b.msg)).2)).2 hb.cancels).1 w
  refine hc.trans ?_
  rw [lookup_foldl_finishEntry _ _ _ w hb.bcst, lookup_foldl_finishEntry _ _ _ w hb.peer, ite_or,
    ite_or]

/-- What the finishing section moves to a sent list is asked for in the message, a
want-block as a want-block, and what it takes out of the cancels is cancelled in the
message. -/
structure SentAsMarked (mq : MessageQueue) (b : Built) : Prop where
  peer : ∀ e ∈ mq.peerWants.marked b.sentPeerEntries,
    (mq.finish b).2.flag e.want = some false ∧
      (e.wantType = .wantBlock → (mq.finish b).2.HoldsBlock e.want)
  bcst : ∀ e ∈ mq.bcstWants.marked b.sentBcstEntries,
    (mq.finish b).2.flag e.want = some false ∧
      (e.wantType = .wantBlock → (mq.finish b).2.HoldsBlock e.want)
  cancels : ∀ c ∈ mq.cancels, c ∉ (mq.finish b).1.cancels → (mq.finish b).2.flag c = some true

/-- The two lists agree about the wants that went in twice: both have the want pending as
it was copied, or neither has. -/
def Agree (mq : MessageQueue) (b : Built) : Prop :=
  ∀ e ∈ b.sentPeerEntries, ∀ e' ∈ b.sentBcstEntries, e.want = e'.want →
    (mq.peerWants.Pends e ↔ mq.bcstWants.Pends e')

instance (mq : MessageQueue) (b : Built) : Decidable (mq.Agree b) :=
  inferInstanceAs (Decidable (∀ e ∈ b.sentPeerEntries, ∀ e' ∈ b.sentBcstEntries,
    e.want = e'.want → (mq.peerWants.Pends e ↔ mq.bcstWants.Pends e')))

section Finish

variable {mq : MessageQueue} {b : Built}

theorem Prepared.notMem_cancels (hb : Prepared b) {e : Wantlist.Entry}
    (he : e ∈ b.sentPeerEntries ∨ e ∈ b.sentBcstEntries) : e.want ∉ b.sentCancels := by
  intro hc
  have h := (hb.asks e he).symm.trans (hb.tells e.want hc)
  cases h

/-- If the lists agree, the entry of a targeted want that is still pending stays. -/
theorem Agree.lookup_peer (h : mq.Agree b) (hb : Prepared b) {e : Wantlist.Entry}
    (he : e ∈ b.sentPeerEntries) (hp : mq.peerWants.Pends e) :
    (mq.finish b).2.wantlist.lookup e.want = b.msg.wantlist.lookup e.want := by
  rw [lookup_finish hb, if_neg]
  rintro (⟨hc, -⟩ | ⟨e', he', hw, hp'⟩ | ⟨e', he', hw, hp'⟩)
  · exact hb.notMem_cancels (.inl he) hc
  · exact hp' ((h e he e' he' hw.symm).mp hp)
  · rw [List.inj_on_of_nodup_map hb.peer he' he hw] at hp'
    exact hp' hp

theorem Agree.lookup_bcst (h : mq.Agree b) (hb : Prepared b) {e : Wantlist.Entry}
    (he : e ∈ b.sentBcstEntries) (hp : mq.bcstWants.Pends e) :
    (mq.finish b).2.wantlist.lookup e.want = b.msg.wantlist.lookup e.want := by
  rw [lookup_finish hb, if_neg]
  rintro (⟨hc, -⟩ | ⟨e', he', hw, hp'⟩ | ⟨e', he', hw, hp'⟩)
  · exact hb.notMem_cancels (.inr he) hc
  · rw [List.inj_on_of_nodup_map hb.bcst he' he hw] at hp'
    exact hp' hp
  · exact hp' ((h e' he' e he hw).mpr hp)

/-- A cancel that leaves the set goes out: nothing else went into the message under its
want. -/
theorem flag_finish_cancel (hb : Prepared b) {c : Want} (hc : c ∈ mq.cancels)
    (hleft : c ∉ (mq.finish b).1.cancels) : (mq.finish b).2.flag c = some true := by
  have hset := (foldl_finishCancel_spec b.sentCancels mq.cancels
    (b.sentBcstEntries.foldl finishEntry (mq.bcstWants,
      (b.sentPeerEntries.foldl finishEntry (mq.peerWants, b.msg)).2)).2 hb.cancels).2 c
  have hsent : c ∈ b.sentCancels := by
    by_contra hno
    exact hleft (hset.mpr ⟨hc, hno⟩)
  have hkeep : (mq.finish b).2.wantlist.lookup c = b.msg.wantlist.lookup c := by
    rw [lookup_finish hb, if_neg]
    rintro (⟨-, hno⟩ | ⟨e, he, rfl, -⟩ | ⟨e, he, rfl, -⟩)
    · exact hno hc
    · exact hb.notMem_cancels (.inr he) hsent
    · exact hb.notMem_cancels (.inl he) hsent
  exact (congrArg (Option.map Message.Entry.cancel) hkeep).trans (hb.tells c hsent)

/-- What is marked as sent was sent, just when the two lists agree. -/
theorem sentAsMarked_iff (hb : Prepared b) (mq : MessageQueue) :
    SentAsMarked mq b ↔ mq.Agree b := by
  have hpeer : ∀ e, e ∈ mq.peerWants.marked b.sentPeerEntries ↔
      e ∈ b.sentPeerEntries ∧ mq.peerWants.Pends e := fun e => by
    rw [RecallWantlist.marked_eq_filter _ _ hb.peer, List.mem_filter, decide_eq_true_iff]
  have hbcst : ∀ e, e ∈ mq.bcstWants.marked b.sentBcstEntries ↔
      e ∈ b.sentBcstEntries ∧ mq.bcstWants.Pends e := fun e => by
    rw [RecallWantlist.marked_eq_filter _ _ hb.bcst, List.mem_filter, decide_eq_true_iff]
  constructor
  · intro h e he e' he' hw
    -- an entry that is marked is in the message, so no loop has taken it out
    constructor
    · intro hp
      by_contra hp'
      have hflag := (h.peer e ((hpeer e).mpr ⟨he, hp⟩)).1
      rw [Message.flag, lookup_finish hb, if_pos (.inr (.inl ⟨e', he', hw.symm, hp'⟩))] at hflag
      cases hflag
    · intro hp
      by_contra hp'
      have hflag := (h.bcst e' ((hbcst e').mpr ⟨he', hp⟩)).1
      rw [Message.flag, lookup_finish hb, if_pos (.inr (.inr ⟨e, he, hw, hp'⟩))] at hflag
      cases hflag
  · intro h
    refine ⟨fun e he => ?_, fun e he => ?_, fun c hc hleft => flag_finish_cancel hb hc hleft⟩
    · obtain ⟨he, hp⟩ := (hpeer e).mp he
      have hkeep := h.lookup_peer hb he hp
      refine ⟨(congrArg (Option.map Message.Entry.cancel) hkeep).trans (hb.asks e (.inl he)), ?_⟩
      intro ht
      obtain ⟨x, hx, htx⟩ := hb.blocks e he ht
      exact ⟨x, hkeep.trans hx, htx⟩
    · obtain ⟨he, hp⟩ := (hbcst e).mp he
      have hkeep := h.lookup_bcst hb he hp
      refine ⟨(congrArg (Option.map Message.Entry.cancel) hkeep).trans (hb.asks e (.inr he)), ?_⟩
      intro ht
      rw [hb.haves e he] at ht
      cases ht

end Finish

/-! ## Runs with calls in the window -/

/-- The calls other goroutines may make while a message is filled. -/
inductive Add where
  | addWants (wantBlocks wantHaves : List Want)
  | addBroadcastWantHaves (wantHaves : List Want)
  | addCancels (cancelKs : List Want)

/-- One of those calls. -/
def add (mq : MessageQueue) : Add → MessageQueue
  | .addWants bs hs => mq.addWants bs hs
  | .addBroadcastWantHaves hs => mq.addBroadcastWantHaves hs
  | .addCancels ks => mq.addCancels ks

/-- The queue when the lock is taken again, and the message that was filled meanwhile. -/
def reopened (mq : MessageQueue) (o : Orders) (supportsHave : Bool) (window : List Add) :
    MessageQueue × Built :=
  let s := mq.snapshot o supportsHave
  (run add s.1 window, buildMessage s.1.maxMessageSize s.1.msg supportsHave s.2)

/-- `extractOutgoingMessage` with calls between its two locked sections. -/
def extractDuring (mq : MessageQueue) (o : Orders) (supportsHave : Bool) (window : List Add) :
    MessageQueue × Message :=
  let r := mq.reopened o supportsHave window
  r.1.finish r.2

/-- With no call in between it is the function of the other modules. -/
theorem extractDuring_nil (mq : MessageQueue) (o : Orders) (sup : Bool) :
    mq.extractDuring o sup [] = mq.extractOutgoingMessage o sup := rfl

theorem prepared_reopened {mq : MessageQueue} (h : mq.Steady) (o : Orders) (sup : Bool)
    (window : List Add) : Prepared (mq.reopened o sup window).2 := by
  refine (copied_snapshot h.toOrderly o sup).prepared _ sup fun w => ?_
  rw [(snapshot_spec mq o sup).msg]
  exact h.clear w

/-- The steps of a queue: the calls, the rebroadcast of the run loop, and the extraction
of a message, whose fields are cleared once it has been handed over. -/
inductive Step where
  | add (a : Add)
  | rebroadcast (ob op : RangeOrder)
  | extract (o : Orders) (supportsHave : Bool) (window : List Add)

def step (mq : MessageQueue) : Step → MessageQueue
  | .add a => mq.add a
  | .rebroadcast ob op => mq.transferRebroadcastWants ob op
  | .extract o sup window =>
      let r := mq.extractDuring o sup window
      { r.1 with msg := r.1.msg.reset false }

section Steady

variable {mq : MessageQueue}

theorem orderly_new (n : Nat) : (new n).Orderly :=
  ⟨(Link.inv_start n).apart, Wantlist.ofTypes_new (T := (· = .wantHave)),
    Wantlist.ofTypes_new (T := (· = .wantHave))⟩

theorem orderly_addWant (t : WantType) (mq : MessageQueue) (c : Want) (h : mq.Orderly) :
    (mq.addWant t c).Orderly :=
  ⟨apart_addWant t c h.apart, h.pending, h.sent⟩

theorem orderly_addBroadcastWantHave (mq : MessageQueue) (c : Want) (h : mq.Orderly) :
    (mq.addBroadcastWantHave c).Orderly :=
  ⟨apart_addBroadcastWantHave c h.apart, (Wantlist.haves_iff_ofTypes.mp h.pending).add rfl, h.sent⟩

theorem orderly_addCancel (mq : MessageQueue) (c : Want) (h : mq.Orderly) :
    (mq.addCancel c).Orderly :=
  ⟨apart_addCancel h.apart, (Wantlist.haves_iff_ofTypes.mp h.pending).remove,
    (Wantlist.haves_iff_ofTypes.mp h.sent).remove⟩

theorem orderly_add (h : mq.Orderly) (a : Add) : (mq.add a).Orderly := by
  cases a with
  | addWants bs hs =>
      exact run_invariant (orderly_addWant .wantBlock) bs
        (run_invariant (orderly_addWant .wantHave) hs h)
  | addBroadcastWantHaves hs => exact run_invariant orderly_addBroadcastWantHave hs h
  | addCancels ks => exact run_invariant orderly_addCancel ks h

theorem msg_add (mq : MessageQueue) (a : Add) : (mq.add a).msg = mq.msg := by
  cases a with
  | addWants bs hs =>
      exact (foldl_keeps MessageQueue.msg (f := addWant .wantBlock) (fun _ _ => rfl) bs _).trans
        (foldl_keeps MessageQueue.msg (f := addWant .wantHave) (fun _ _ => rfl) hs mq)
  | addBroadcastWantHaves hs =>
      exact foldl_keeps MessageQueue.msg (f := addBroadcastWantHave) (fun _ _ => rfl) hs mq
  | addCancels ks => exact foldl_keeps MessageQueue.msg (f := addCancel) (fun _ _ => rfl) ks mq

theorem steady_add (h : mq.Steady) (a : Add) : (mq.add a).Steady := by
  refine ⟨orderly_add h.toOrderly a, fun w => ?_⟩
  rw [msg_add]
  exact h.clear w

theorem orderly_transferRebroadcastWants (h : mq.Orderly) (ob op : RangeOrder) :
    (mq.transferRebroadcastWants ob op).Orderly := by
  have hapart := apart_transferRebroadcastWants ob op h.apart
  revert hapart
  rw [transferRebroadcastWants]
  split
  · exact fun _ => h
  · intro hapart
    exact ⟨hapart, (Wantlist.haves_iff_ofTypes.mp h.pending).absorb h.sent, h.sent⟩

theorem msg_transferRebroadcastWants (mq : MessageQueue) (ob op : RangeOrder) :
    (mq.transferRebroadcastWants ob op).msg = mq.msg := by
  rw [transferRebroadcastWants]
  split <;> rfl

theorem orderly_snapshot (h : mq.Orderly) (o : Orders) (sup : Bool) :
    (mq.snapshot o sup).1.Orderly := by
  have hs := snapshot_spec mq o sup
  refine ⟨fun w hw => ?_, ?_, ?_⟩
  · obtain ⟨hp, hb⟩ := h.apart w (hs.cancels ▸ hw)
    exact ⟨fun ht => hp ((hs.peerWants w).mp ht).1, by rw [hs.bcstWants]; exact hb⟩
  · rw [hs.bcstWants]; exact h.pending
  · rw [hs.bcstWants]; exact h.sent

/-- Marking entries of some types as sent keeps the lists lists of entries of these types. -/
theorem ofTypes_foldl_finishEntry {T : WantType → Prop} :
    ∀ (es : List Wantlist.Entry) (r : RecallWantlist) (m : Message),
      (∀ e ∈ es, T e.wantType) → r.pending.OfTypes T → r.sent.OfTypes T →
        (es.foldl finishEntry (r, m)).1.pending.OfTypes T ∧
          (es.foldl finishEntry (r, m)).1.sent.OfTypes T
  | [], _, _, _, hp, hs => ⟨hp, hs⟩
  | e :: es, r, m, hes, hp, hs => by
      have hes' : ∀ e' ∈ es, T e'.wantType := fun e' he' => hes e' (List.mem_cons_of_mem _ he')
      have hone : (finishEntry (r, m) e).1.pending.OfTypes T ∧
          (finishEntry (r, m) e).1.sent.OfTypes T := by
        rw [finishEntry, RecallWantlist.markSent]
        cases heq : r.pending.removeType e.want e.wantType with
        | mk pending ok =>
            cases ok with
            | false => exact ⟨hp, hs⟩
            | true =>
                have hpending := hp.removeType (c := e.want) (t := e.wantType)
                rw [heq] at hpending
                exact ⟨hpending, hs.add (hes e List.mem_cons_self)⟩
      exact ofTypes_foldl_finishEntry es _ _ hes' hone.1 hone.2

theorem orderly_finish {b : Built} (hb : Prepared b) (h : mq.Orderly) :
    (mq.finish b).1.Orderly := by
  have hpeer := foldl_finishEntry_spec b.sentPeerEntries mq.peerWants b.msg
  set m := (b.sentPeerEntries.foldl finishEntry (mq.peerWants, b.msg)).2
  have hbcst := foldl_finishEntry_spec b.sentBcstEntries mq.bcstWants m
  have hcancels := (foldl_finishCancel_spec b.sentCancels mq.cancels
    (b.sentBcstEntries.foldl finishEntry (mq.bcstWants, m)).2 hb.cancels).2
  have hhaves := ofTypes_foldl_finishEntry (T := (· = .wantHave)) b.sentBcstEntries mq.bcstWants m
    hb.haves h.pending h.sent
  refine ⟨fun w hwc => ?_, hhaves.1, hhaves.2⟩
  obtain ⟨hp, hq⟩ := h.apart w ((hcancels w).mp hwc).1
  exact ⟨fun ht => hp ((hpeer.tracks w).mp ht), fun ht => hq ((hbcst.tracks w).mp ht)⟩

theorem steady_extract (h : mq.Steady) (o : Orders) (sup : Bool) (window : List Add) :
    (mq.step (.extract o sup window)).Steady := by
  have hb := prepared_reopened h o sup window
  have hw : (mq.reopened o sup window).1.Orderly :=
    run_invariant (I := Orderly) (fun _ a h => orderly_add h a) window
      (orderly_snapshot h.toOrderly o sup)
  have hf := orderly_finish hb hw
  exact ⟨⟨hf.apart, hf.pending, hf.sent⟩, fun _ => rfl⟩

theorem steady_step (mq : MessageQueue) (a : Step) (h : mq.Steady) : (mq.step a).Steady := by
  cases a with
  | add a => exact steady_add h a
  | rebroadcast ob op =>
      refine ⟨orderly_transferRebroadcastWants h.toOrderly ob op, fun w => ?_⟩
      rw [step, msg_transferRebroadcastWants]
      exact h.clear w
  | extract o sup window => exact steady_extract h o sup window

end Steady

theorem steady_reached (n : Nat) (steps : List Step) : (run step (new n) steps).Steady :=
  run_invariant steady_step steps ⟨orderly_new n, fun _ => rfl⟩

/-- **What is marked as sent was sent, exactly.**  Take any state a queue reaches and any
calls that come in while a message is filled.  The finishing section marks as sent
only what is in the message, and drops only cancels that are, if and only if the two
lists agree, when the lock is taken again, about every want that went in both as a
targeted want and as a broadcast. -/
theorem extraction_sentAsMarked_iff (n : Nat) (steps : List Step) (o : Orders)
    (supportsHave : Bool) (window : List Add) :
    let r := (run step (new n) steps).reopened o supportsHave window
    SentAsMarked r.1 r.2 ↔ r.1.Agree r.2 := by
  intro r
  exact sentAsMarked_iff (prepared_reopened (steady_reached n steps) o supportsHave window) r.1

/-- A want-have that is pending for the peer and as a broadcast is made a want-block while
the message is filled: the broadcast is marked as sent and the message is empty. -/
theorem broadcast_marked_unsent :
    let w : Want := ⟨⟨[1]⟩, []⟩
    let mq := run step (new 1000) [.add (.addWants [] [w]), .add (.addBroadcastWantHaves [w])]
    let r := mq.reopened ⟨.stored, .stored, .stored⟩ true [.addWants [w] []]
    w ∈ (r.1.finish r.2).1.bcstWants.sent ∧ (r.1.finish r.2).2.empty = true ∧
      ¬ SentAsMarked r.1 r.2 := by
  intro w mq r
  have hno : ¬ r.1.Agree r.2 := by decide
  have hprep : Prepared r.2 := prepared_reopened (steady_reached 1000 _) _ _ _
  exact ⟨by decide, by decide, fun h => hno ((sentAsMarked_iff hprep r.1).mp h)⟩

end MessageQueue

end BitswapAuth
