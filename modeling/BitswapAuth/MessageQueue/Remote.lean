/-
# `BitswapAuth.MessageQueue.Remote` — what the remote peer holds, and what is kept of it

The remote peer's view is the effect of the messages in the order they are
emitted: an entry that is no cancel adds its want, a cancel removes it.  What
one would like is that every want the remote holds is still recorded locally,
as sent, as pending, or as a cancel that has yet to go out.

That fails, in one way.  A want that is added again clears the cancel that was
waiting for it (`addWant`, `addBroadcastWantHave`), and from then on the want is
merely pending although the remote holds it.  If it is now cancelled, or dropped
because the peer turns out not to know HAVE, before it is sent again, no cancel
goes out and no record is left.  `KeepsRecord` says that this does not happen,
step by step, and `always_noLeak_iff` that nothing else can go wrong.
-/
import BitswapAuth.MessageQueue.Queue
import BitswapAuth.Lib.Run

namespace BitswapAuth

open Lib Wantlist RecallWantlist

namespace Message

/-- Adding entries turns silence into a want and leaves a cancel a cancel. -/
theorem flag_foldl_addEntry {add : Message → Wantlist.Entry → Message × Nat}
    (hadd : ∀ m e, ∃ p t d, add m e = m.addEntry e.want p t d) (es : List Wantlist.Entry) :
    ∀ (m : Message) (w : Want), (es.foldl (fun m e => (add m e).1) m).flag w =
      if w ∈ es.map (·.want) then some ((m.flag w).getD false) else m.flag w := by
  induction es with
  | nil => intro m w; simp
  | cons e es ih =>
      intro m w
      obtain ⟨p, t, d, h⟩ := hadd m e
      rw [List.foldl_cons, ih, h, flag_addEntry]
      by_cases he : w = e.want
      · subst he; simp
      · simp [he]

end Message

namespace MessageQueue

/-! ## The message an extraction builds -/

/-- The filling loop adds a prefix of its items. -/
theorem fill_spec {α : Type} (n : Nat) (add : Message → α → Message × Nat) :
    ∀ (xs : List α) (m : Message) (k : Nat), ∃ ys k' full,
      fill n add m k xs = (ys.foldl (fun m x => (add m x).1) m, k', ys, full) ∧ ys <+: xs
  | [], m, k => ⟨[], k, false, rfl, List.prefix_rfl⟩
  | x :: xs, m, k => by
      rw [fill]
      by_cases h : k + (add m x).2 ≥ n
      · simp only [h, if_true]
        exact ⟨[x], _, _, rfl, ⟨xs, rfl⟩⟩
      · simp only [h, if_false]
        obtain ⟨ys, k', full, hf, hp⟩ := fill_spec n add xs (add m x).1 (k + (add m x).2)
        rw [hf]
        exact ⟨x :: ys, k', full, rfl, List.cons_prefix_cons.mpr ⟨rfl, hp⟩⟩

theorem sortIfNeeded_perm (n k : Nat) (es : List Wantlist.Entry) :
    (sortIfNeeded n k es).Perm es := by
  rw [sortIfNeeded]
  split
  · exact sortEntries_perm es
  · exact .refl es

/-- The three ways the filling ends: among the cancels, among the targeted wants, or with the
broadcast wants. -/
theorem buildMessage_cases (n : Nat) (msg : Message) (sup : Bool) (s : Snapshot) :
    let c := fill n Message.cancel msg 0 s.cancels
    let p := fill n addPeerEntry c.1 c.2.1 (sortIfNeeded n c.2.1 s.peerEntries)
    let b := fill n (addBcstEntry sup) p.1 p.2.1 (sortIfNeeded n p.2.1 s.bcstEntries)
    (c.2.2.2 = true ∧ buildMessage n msg sup s = ⟨c.1, [], [], c.2.2.1⟩) ∨
      (p.2.2.2 = true ∧ buildMessage n msg sup s = ⟨p.1, p.2.2.1, [], c.2.2.1⟩) ∨
        buildMessage n msg sup s = ⟨b.1, p.2.2.1, b.2.2.1, c.2.2.1⟩ := by
  intro c p b
  cases hc : c.2.2.2 with
  | true => exact .inl ⟨rfl, if_pos hc⟩
  | false =>
      have hc' : ¬ c.2.2.2 = true := Bool.eq_false_iff.mp hc
      cases hp : p.2.2.2 with
      | true => exact .inr (.inl ⟨rfl, (if_neg hc').trans (if_pos hp)⟩)
      | false => exact .inr (.inr ((if_neg hc').trans (if_neg (Bool.eq_false_iff.mp hp))))

/-- The message of an extraction: some first cancels, then some first targeted
entries, then some first broadcast entries.  A loop that is left early leaves
nothing for those after it. -/
theorem buildMessage_eq (n : Nat) (msg : Message) (sup : Bool) (s : Snapshot) :
    ∃ cs ps bs, cs <+: s.cancels ∧ (∃ k, ps <+: sortIfNeeded n k s.peerEntries) ∧
      (∃ k, bs <+: sortIfNeeded n k s.bcstEntries) ∧
      buildMessage n msg sup s =
        ⟨bs.foldl (fun m e => (addBcstEntry sup m e).1)
          (ps.foldl (fun m e => (addPeerEntry m e).1) (cs.foldl (fun m c => (m.cancel c).1) msg)),
          ps, bs, cs⟩ := by
  obtain ⟨cs, csz, cfull, hc, hcp⟩ := fill_spec n Message.cancel s.cancels msg 0
  obtain ⟨ps, psz, pfull, hp, hpp⟩ := fill_spec n addPeerEntry
    (sortIfNeeded n csz s.peerEntries) (cs.foldl (fun m x => (m.cancel x).1) msg) csz
  obtain ⟨bs, bsz, bfull, hb, hbp⟩ := fill_spec n (addBcstEntry sup)
    (sortIfNeeded n psz s.bcstEntries)
    (ps.foldl (fun m x => (addPeerEntry m x).1) (cs.foldl (fun m x => (m.cancel x).1) msg)) psz
  have hcases := buildMessage_cases n msg sup s
  simp only [hc, hp, hb] at hcases
  rcases hcases with ⟨-, heq⟩ | ⟨-, heq⟩ | heq
  · exact ⟨cs, [], [], hcp, ⟨0, List.nil_prefix⟩, ⟨0, List.nil_prefix⟩, heq⟩
  · exact ⟨cs, ps, [], hcp, ⟨csz, hpp⟩, ⟨0, List.nil_prefix⟩, heq⟩
  · exact ⟨cs, ps, bs, hcp, ⟨csz, hpp⟩, ⟨psz, hbp⟩, heq⟩

/-- What went into a message comes from the snapshot, and the message says of
each want what it went in as. -/
structure BuiltFrom (s : Snapshot) (b : Built) : Prop where
  peer : ∀ e ∈ b.sentPeerEntries, e ∈ s.peerEntries
  bcst : ∀ e ∈ b.sentBcstEntries, e ∈ s.bcstEntries
  cancels : b.sentCancels <+: s.cancels
  flag : ∀ w, b.msg.flag w =
    if w ∈ b.sentCancels then some true
    else if w ∈ b.sentPeerEntries.map (·.want) ∨ w ∈ b.sentBcstEntries.map (·.want) then some false
    else none

theorem buildMessage_spec (n : Nat) {msg : Message} (sup : Bool) (s : Snapshot)
    (hmsg : ∀ w, msg.flag w = none) : BuiltFrom s (buildMessage n msg sup s) := by
  have hp : ∀ m e, ∃ p t d, addPeerEntry m e = m.addEntry e.want p t d :=
    fun m e => ⟨_, _, _, rfl⟩
  have hb : ∀ m e, ∃ p t d, addBcstEntry sup m e = m.addEntry e.want p t d :=
    fun m e => ⟨_, _, _, rfl⟩
  obtain ⟨cs, ps, bs, hcs, ⟨k, hps⟩, ⟨k', hbs⟩, heq⟩ := buildMessage_eq n msg sup s
  rw [heq]
  refine ⟨fun e he => (sortIfNeeded_perm n k _).subset (hps.subset he),
    fun e he => (sortIfNeeded_perm n k' _).subset (hbs.subset he), hcs, fun w => ?_⟩
  dsimp only
  rw [Message.flag_foldl_addEntry hb, Message.flag_foldl_addEntry hp, Message.flag_foldl_cancel,
    hmsg]
  by_cases hw : w ∈ cs <;> by_cases hw' : w ∈ ps.map (·.want) <;>
    by_cases hw'' : w ∈ bs.map (·.want) <;> simp [hw, hw', hw'']

/-! ## Marking as sent

At `FINISH` an entry that is still pending moves to the sent list, and one that
is not leaves the message; no third thing happens, whatever the entries are. -/

structure Finished (r : RecallWantlist) (m : Message) (es : List Wantlist.Entry)
    (s : RecallWantlist × Message) : Prop where
  tracks : ∀ w, s.1.Tracks w ↔ r.Tracks w
  other : ∀ w, w ∉ es.map (·.want) → s.2.flag w = m.flag w
  entry : ∀ w ∈ es.map (·.want), s.2.flag w = none ∨ (s.2.flag w = m.flag w ∧ r.Tracks w)

theorem finishEntry_spec (r : RecallWantlist) (m : Message) (e : Wantlist.Entry) :
    Finished r m [e] (finishEntry (r, m) e) := by
  rw [finishEntry]
  rcases r.markSent_cases e with h | ⟨r', h, hp, hpend, hsent⟩
  · rw [h]
    refine ⟨fun w => Iff.rfl, fun w hw => ?_, fun w hw => .inl ?_⟩
    · have hne : w ≠ e.want := by simpa using hw
      rw [Message.flag_remove, if_neg hne]
    · have he : w = e.want := by simpa using hw
      rw [Message.flag_remove, if_pos he]
  · rw [h]
    refine ⟨fun w => ?_, fun _ _ => rfl, fun w hw => .inr ⟨rfl, ?_⟩⟩
    · show w ∈ r'.pending ∨ w ∈ r'.sent ↔ w ∈ r.pending ∨ w ∈ r.sent
      rw [hpend, hsent]
      by_cases hwe : w = e.want
      · subst hwe; simp [hp]
      · simp [hwe]
    · have he : w = e.want := by simpa using hw
      exact .inl (he ▸ hp)

theorem Finished.append {r : RecallWantlist} {m : Message} {es es' : List Wantlist.Entry}
    {s s' : RecallWantlist × Message} (h : Finished r m es s) (h' : Finished s.1 s.2 es' s') :
    Finished r m (es ++ es') s' := by
  refine ⟨fun w => (h'.tracks w).trans (h.tracks w), fun w hw => ?_, fun w hw => ?_⟩
  · rw [List.map_append, List.mem_append, not_or] at hw
    rw [h'.other w hw.2, h.other w hw.1]
  · by_cases hes' : w ∈ es'.map (·.want)
    · rcases h'.entry w hes' with hn | ⟨heq, hs⟩
      · exact .inl hn
      · by_cases hes : w ∈ es.map (·.want)
        · rcases h.entry w hes with hn | ⟨heq', _⟩
          · exact .inl (heq.trans hn)
          · exact .inr ⟨heq.trans heq', (h.tracks w).mp hs⟩
        · exact .inr ⟨heq.trans (h.other w hes), (h.tracks w).mp hs⟩
    · rw [List.map_append, List.mem_append] at hw
      rw [h'.other w hes']
      exact h.entry w (hw.resolve_right hes')

theorem foldl_finishEntry_spec : ∀ (es : List Wantlist.Entry) (r : RecallWantlist) (m : Message),
    Finished r m es (es.foldl finishEntry (r, m))
  | [], r, m => ⟨fun _ => Iff.rfl, fun _ _ => rfl, fun _ h => by simp at h⟩
  | e :: es, r, m => (finishEntry_spec r m e).append (foldl_finishEntry_spec es _ _)

/-- The cancels that went into the message leave the set, and a cancel that is not in
the set any more leaves the message.  Were a cancel listed twice, the second visit would
take it out of the message. -/
theorem foldl_finishCancel_spec : ∀ (cs : List Want) (S : GoSet Want) (m : Message), cs.Nodup →
    (∀ w, (cs.foldl finishCancel (S, m)).2.wantlist.lookup w =
      if w ∈ cs ∧ w ∉ S then none else m.wantlist.lookup w) ∧
    ∀ w, w ∈ (cs.foldl finishCancel (S, m)).1 ↔ w ∈ S ∧ w ∉ cs
  | [], S, m, _ => ⟨fun w => by simp, fun w => by simp⟩
  | c :: cs, S, m, hnd => by
      obtain ⟨hc, hnd⟩ := List.nodup_cons.mp hnd
      rw [List.foldl_cons]
      by_cases hS : c ∈ S
      · rw [show finishCancel (S, m) c = (S.remove c, m) from if_pos (GoSet.has_eq_true.mpr hS)]
        obtain ⟨hm, hset⟩ := foldl_finishCancel_spec cs (S.remove c) m hnd
        refine ⟨fun w => ?_, fun w => ?_⟩
        · rw [hm]
          by_cases hw : w = c
          · subst hw; simp [hc, hS]
          · simp [hw, GoSet.mem_remove]
        · rw [hset, GoSet.mem_remove, List.mem_cons]
          grind
      · rw [show finishCancel (S, m) c = (S, m.remove c) from
          if_neg fun h => hS (GoSet.has_eq_true.mp h)]
        obtain ⟨hm, hset⟩ := foldl_finishCancel_spec cs S (m.remove c) hnd
        refine ⟨fun w => ?_, fun w => ?_⟩
        · rw [hm, Message.lookup_wantlist_remove]
          by_cases hw : w = c
          · subst hw; simp [hS]
          · simp [hw]
        · rw [hset, List.mem_cons]
          by_cases hw : w = c
          · subst hw; simp [hS]
          · simp [hw]

/-! ## Dropping want-haves for a peer that does not know them -/

/-- The want is pending as a want-have and was not sent as a want-block, so
that dropping the want-have leaves no record of it. -/
def Dropped (r : RecallWantlist) (w : Want) : Prop :=
  (∃ e, r.pending.set.lookup w = some e ∧ e.wantType = .wantHave) ∧
    ¬ ∃ e, r.sent.set.lookup w = some e ∧ e.wantType = .wantBlock

theorem lookup_foldl_dropWantHave : ∀ (es : List Wantlist.Entry) (r : RecallWantlist) (w : Want),
    let r' := es.foldl dropWantHave r
    let hit := ∃ e ∈ es, e.want = w ∧ e.wantType = .wantHave
    (r'.pending.set.lookup w
        = if hit then Wantlist.onlyBlock (r.pending.set.lookup w) else r.pending.set.lookup w) ∧
      (r'.sent.set.lookup w
        = if hit then Wantlist.onlyBlock (r.sent.set.lookup w) else r.sent.set.lookup w)
  | [], r, w => by simp
  | e :: es, r, w => by
      intro r' hit
      obtain ⟨ihp, ihs⟩ := lookup_foldl_dropWantHave es (dropWantHave r e) w
      simp only [r', List.foldl_cons, ihp, ihs]
      rw [dropWantHave]
      by_cases ht : e.wantType = .wantHave
      · by_cases hw : e.want = w
        · subst hw
          have hhit : hit := ⟨e, List.mem_cons_self, rfl, ht⟩
          simp only [if_pos ht, if_pos hhit, RecallWantlist.removeType,
            lookup_removeType_wantHave, if_true]
          have hidem := onlyBlock_idem
          constructor
          · split
            · exact hidem _
            · rfl
          · split
            · exact hidem _
            · rfl
        · have hhit : hit ↔ ∃ e ∈ es, e.want = w ∧ e.wantType = .wantHave := by
            simp [hit, hw]
          simp only [if_pos ht, hhit, RecallWantlist.removeType,
            lookup_removeType_wantHave, if_neg (Ne.symm hw), and_self]
      · have hhit : hit ↔ ∃ e ∈ es, e.want = w ∧ e.wantType = .wantHave := by
          simp [hit, ht]
        simp only [if_neg ht, hhit, and_self]

theorem tracks_foldl_dropWantHave (r : RecallWantlist) (o : RangeOrder) (w : Want) :
    ((r.pending.entries o).foldl dropWantHave r).Tracks w ↔ r.Tracks w ∧ ¬ Dropped r w := by
  obtain ⟨hp, hs⟩ := lookup_foldl_dropWantHave (r.pending.entries o) r w
  have hhit : (∃ e ∈ r.pending.entries o, e.want = w ∧ e.wantType = .wantHave) ↔
      ∃ e, r.pending.set.lookup w = some e ∧ e.wantType = .wantHave := by
    constructor
    · rintro ⟨e, he, rfl, ht⟩
      exact ⟨e, mem_entries.mp he, ht⟩
    · rintro ⟨e, he, ht⟩
      have hw : e.want = w := r.pending.keyed w e he
      exact ⟨e, mem_entries.mpr (hw ▸ he), hw, ht⟩
  simp only [RecallWantlist.Tracks, mem_iff, hp, hs, Dropped, ← hhit]
  split
  · rename_i hit
    obtain ⟨e, he, ht⟩ := hhit.mp hit
    -- neither list keeps more than a want-block, and the pending entry is none
    have hno : ¬ ∃ e', some e = some e' ∧ e'.wantType = .wantBlock := by
      rintro ⟨e', h, ht'⟩
      cases Option.some.inj h
      exact absurd (ht.symm.trans ht') (by decide)
    simp only [he, onlyBlock_eq_some, hno, false_or, hit, true_and, not_not]
    exact ⟨fun h => ⟨.inl ⟨e, rfl⟩, h⟩, fun h => h.2⟩
  · rename_i hit
    simp only [hit, false_and, not_false_eq_true, and_true]

/-! ## One extraction -/

/-- Recorded at all: in one of the lists, or as a cancel. -/
def Tracked (mq : MessageQueue) (w : Want) : Prop :=
  mq.peerWants.Tracks w ∨ mq.bcstWants.Tracks w ∨ w ∈ mq.cancels

/-- A want is never both recorded and about to be cancelled. -/
def Apart (mq : MessageQueue) : Prop :=
  ∀ w ∈ mq.cancels, ¬ mq.peerWants.Tracks w ∧ ¬ mq.bcstWants.Tracks w

/-- The reused message says nothing. -/
def Clear (mq : MessageQueue) : Prop := ∀ w, mq.msg.flag w = none

/-- What the first locked section leaves: the targeted wants less those that
are dropped, and a copy of what is pending. -/
structure Snapped (mq : MessageQueue) (sup : Bool) (s : MessageQueue × Snapshot) : Prop where
  peerWants : ∀ w, s.1.peerWants.Tracks w ↔
    mq.peerWants.Tracks w ∧ ¬ (sup = false ∧ Dropped mq.peerWants w)
  bcstWants : s.1.bcstWants = mq.bcstWants
  cancels : s.1.cancels = mq.cancels
  msg : s.1.msg = mq.msg
  peer : ∀ e ∈ s.2.peerEntries, mq.peerWants.pending.set.lookup e.want = some e ∧
    ¬ (sup = false ∧ e.wantType = .wantHave)
  bcst : ∀ e ∈ s.2.bcstEntries, e.want ∈ mq.bcstWants.pending
  copied : s.2.cancels.Nodup ∧ ∀ c ∈ s.2.cancels, c ∈ mq.cancels

theorem snapshot_spec (mq : MessageQueue) (o : Orders) (sup : Bool) :
    Snapped mq sup (mq.snapshot o sup) := by
  have hb : ∀ e ∈ mq.bcstWants.pending.entries o.bcst, e.want ∈ mq.bcstWants.pending :=
    fun e he => mem_iff.mpr ⟨e, mem_entries.mp he⟩
  have hc : (o.cancels.range mq.cancels.keys).Nodup ∧
      ∀ c ∈ o.cancels.range mq.cancels.keys, c ∈ mq.cancels :=
    ⟨RangeOrder.nodup_range.mpr mq.cancels.keys_nodup,
      fun c h => AList.mem_keys.mp (RangeOrder.mem_range.mp h)⟩
  cases sup with
  | true =>
      exact ⟨fun w => by simp [snapshot], rfl, rfl, rfl,
        fun e he => ⟨mem_entries.mp he, by simp⟩, hb, hc⟩
  | false =>
      refine ⟨fun w => ?_, rfl, rfl, rfl, fun e he => ?_, hb, hc⟩
      · rw [eq_self_iff_true, true_and]
        exact tracks_foldl_dropWantHave mq.peerWants o.peer w
      · have he' := List.mem_filter.mp he
        exact ⟨mem_entries.mp he'.1, by simpa using he'.2⟩

/-- What the second locked section leaves: the lists record what they recorded,
the cancels that went out are gone, and the message asks for nothing that is not
recorded. -/
structure Closed (mq : MessageQueue) (b : Built) (s : MessageQueue × Message) : Prop where
  peerWants : ∀ w, s.1.peerWants.Tracks w ↔ mq.peerWants.Tracks w
  bcstWants : ∀ w, s.1.bcstWants.Tracks w ↔ mq.bcstWants.Tracks w
  cancels : ∀ w, w ∈ s.1.cancels ↔ w ∈ mq.cancels ∧ w ∉ b.sentCancels
  other : ∀ w, w ∉ b.sentPeerEntries.map (·.want) → w ∉ b.sentBcstEntries.map (·.want) →
    s.2.flag w = b.msg.flag w
  entry : ∀ w, w ∈ b.sentPeerEntries.map (·.want) ∨ w ∈ b.sentBcstEntries.map (·.want) →
    s.2.flag w = none ∨ mq.peerWants.Tracks w ∨ mq.bcstWants.Tracks w

theorem finish_spec (mq : MessageQueue) (b : Built) (hnd : b.sentCancels.Nodup)
    (hsub : ∀ c ∈ b.sentCancels, c ∈ mq.cancels) : Closed mq b (mq.finish b) := by
  have hp := foldl_finishEntry_spec b.sentPeerEntries mq.peerWants b.msg
  have ht := foldl_finishEntry_spec b.sentBcstEntries mq.bcstWants
    (b.sentPeerEntries.foldl finishEntry (mq.peerWants, b.msg)).2
  obtain ⟨hcm, hcS⟩ := foldl_finishCancel_spec b.sentCancels mq.cancels
    (b.sentBcstEntries.foldl finishEntry (mq.bcstWants,
      (b.sentPeerEntries.foldl finishEntry (mq.peerWants, b.msg)).2)).2 hnd
  -- every cancel that went in is still in the set, so the message keeps all of them
  have hflag : ∀ w, (mq.finish b).2.flag w = Message.flag _ w := fun w =>
    congrArg (Option.map Message.Entry.cancel) ((hcm w).trans
      (if_neg fun h => h.2 (hsub w h.1)))
  refine ⟨hp.tracks, ht.tracks, hcS, fun w hwp hwt => ?_, fun w hw => ?_⟩
  · exact (hflag w).trans ((ht.other w hwt).trans (hp.other w hwp))
  · rw [hflag]
    by_cases hwt : w ∈ b.sentBcstEntries.map (·.want)
    · rcases ht.entry w hwt with hn | ⟨_, htr⟩
      · exact .inl hn
      · exact .inr (.inr htr)
    · rcases hp.entry w (hw.resolve_right hwt) with hn | ⟨_, htr⟩
      · exact .inl ((ht.other w hwt).trans hn)
      · exact .inr (.inl htr)

/-- **One extraction.**  A want the message asks for is still recorded; a want
it says nothing about is recorded as before, unless it was dropped; and nothing
is recorded that was not. -/
structure Extracted (mq : MessageQueue) (sup : Bool) (s : MessageQueue × Message) : Prop where
  peerWants : ∀ w, s.1.peerWants.Tracks w ↔
    mq.peerWants.Tracks w ∧ ¬ (sup = false ∧ Dropped mq.peerWants w)
  bcstWants : ∀ w, s.1.bcstWants.Tracks w ↔ mq.bcstWants.Tracks w
  cancels : ∀ w ∈ s.1.cancels, w ∈ mq.cancels
  kept : ∀ w ∈ mq.cancels, s.2.flag w = some true ∨ w ∈ s.1.cancels
  asked : ∀ w, s.2.flag w = some false → s.1.peerWants.Tracks w ∨ s.1.bcstWants.Tracks w
  dropped : ∀ w, sup = false → Dropped mq.peerWants w → ¬ mq.bcstWants.Tracks w →
    s.2.flag w = none
  clear : s.1.Clear

theorem extract_spec {mq : MessageQueue} (o : Orders) (sup : Bool) (hap : mq.Apart)
    (hcl : mq.Clear) : Extracted mq sup (mq.extract o sup) := by
  have hs := snapshot_spec mq o sup
  have hmsg : ∀ w, (mq.snapshot o sup).1.msg.flag w = none := by rw [hs.msg]; exact hcl
  have hb := buildMessage_spec (mq.snapshot o sup).1.maxMessageSize sup (mq.snapshot o sup).2 hmsg
  set b := buildMessage (mq.snapshot o sup).1.maxMessageSize (mq.snapshot o sup).1.msg sup
    (mq.snapshot o sup).2 with hbdef
  have hsub : ∀ c ∈ b.sentCancels, c ∈ (mq.snapshot o sup).1.cancels :=
    fun c h => hs.cancels ▸ hs.copied.2 c (hb.cancels.subset h)
  have hf := finish_spec (mq.snapshot o sup).1 b (hs.copied.1.sublist hb.cancels.sublist) hsub
  have hpeer : ∀ w, w ∈ b.sentPeerEntries.map (·.want) →
      ∃ e, mq.peerWants.pending.set.lookup w = some e ∧
        ¬ (sup = false ∧ e.wantType = .wantHave) := by
    intro w hw
    obtain ⟨e, he, rfl⟩ := List.mem_map.mp hw
    exact ⟨e, hs.peer e (hb.peer e he)⟩
  have hbcst : ∀ w, w ∈ b.sentBcstEntries.map (·.want) → mq.bcstWants.Tracks w := by
    intro w hw
    obtain ⟨e, he, rfl⟩ := List.mem_map.mp hw
    exact .inl (hs.bcst e (hb.bcst e he))
  have htracks : ∀ w e, mq.peerWants.pending.set.lookup w = some e → mq.peerWants.Tracks w :=
    fun w e he => .inl (mem_iff.mpr ⟨e, he⟩)
  have hbcst' : ∀ w, (mq.snapshot o sup).1.bcstWants.Tracks w ↔ mq.bcstWants.Tracks w :=
    fun w => by rw [hs.bcstWants]
  -- a want whose cancel went in is in neither list, so nothing overwrites the cancel
  have hcancel : ∀ w ∈ b.sentCancels,
      ((mq.snapshot o sup).1.finish b).2.flag w = some true := by
    intro w hw
    have hap' := hap w (hs.cancels ▸ hsub w hw)
    have hwp : w ∉ b.sentPeerEntries.map (·.want) := fun h =>
      (hpeer w h).elim fun e he => hap'.1 (htracks w e he.1)
    rw [hf.other w hwp (fun h => hap'.2 (hbcst w h)), hb.flag, if_pos hw]
  refine ⟨fun w => (hf.peerWants w).trans (hs.peerWants w),
    fun w => (hf.bcstWants w).trans (hbcst' w), fun w hw => hs.cancels ▸ ((hf.cancels w).mp hw).1,
    fun w hw => ?_, fun w hw => ?_, fun w hsup hd hnb => ?_, fun w => rfl⟩
  · by_cases hwc : w ∈ b.sentCancels
    · exact .inl (hcancel w hwc)
    · exact .inr ((hf.cancels w).mpr ⟨hs.cancels ▸ hw, hwc⟩)
  · have hflag : ((mq.snapshot o sup).1.finish b).2.flag w = some false := hw
    have hin : w ∈ b.sentPeerEntries.map (·.want) ∨ w ∈ b.sentBcstEntries.map (·.want) := by
      by_contra hno
      obtain ⟨hnp, hnb⟩ := not_or.mp hno
      rw [hf.other w hnp hnb, hb.flag, if_neg hno] at hflag
      split at hflag <;> simp at hflag
    rcases hf.entry w hin with hn | htr
    · simp [hn] at hflag
    · exact htr.imp (hf.peerWants w).mpr (hf.bcstWants w).mpr
  · obtain ⟨⟨e, he, hte⟩, _⟩ := hd
    have hwc : w ∉ b.sentCancels := fun h => (hap w (hs.cancels ▸ hsub w h)).1 (htracks w e he)
    have hwp : w ∉ b.sentPeerEntries.map (·.want) := by
      intro h
      obtain ⟨e', he', hty⟩ := hpeer w h
      cases Option.some.inj (he.symm.trans he')
      exact hty ⟨hsup, hte⟩
    have hwt : w ∉ b.sentBcstEntries.map (·.want) := fun h => hnb (hbcst w h)
    show ((mq.snapshot o sup).1.finish b).2.flag w = none
    rw [hf.other w hwp hwt, hb.flag, if_neg hwc, if_neg (not_or.mpr ⟨hwp, hwt⟩)]

/-! ## The queue and the remote peer -/

/-- The queue, with the wants the remote peer holds. -/
structure Link where
  mq : MessageQueue
  remote : Want → Bool

/-- The calls that reach a queue. -/
inductive Call where
  | addWants (wantBlocks wantHaves : List Want)
  | addBroadcastWantHaves (wantHaves : List Want)
  | addCancels (cancelKs : List Want)
  | rebroadcast (ob op : RangeOrder)
  | extract (o : Orders) (supportsHave : Bool)

/-- The remote's wants once it has read a message. -/
def deliver (remote : Want → Bool) (m : Message) (w : Want) : Bool :=
  match m.flag w with
  | none => remote w
  | some cancel => !cancel

def Link.step (s : Link) : Call → Link
  | .addWants bs hs => { s with mq := s.mq.addWants bs hs }
  | .addBroadcastWantHaves hs => { s with mq := s.mq.addBroadcastWantHaves hs }
  | .addCancels ks => { s with mq := s.mq.addCancels ks }
  | .rebroadcast ob op => { s with mq := s.mq.transferRebroadcastWants ob op }
  | .extract o sup =>
      let r := s.mq.extract o sup
      ⟨r.1, deliver s.remote r.2⟩

/-- A queue as it is created, and a remote that holds nothing. -/
def Link.start (maxMsgSize : Nat) : Link := ⟨.new maxMsgSize, fun _ => false⟩

/-- No want is leaked: what the remote holds is recorded, and recorded as sent
once there is no pending work. -/
def Link.NoLeak (s : Link) : Prop :=
  (∀ w, s.remote w = true → s.mq.Tracked w) ∧
  (s.mq.pendingWorkCount = 0 →
    ∀ w, s.remote w = true → w ∈ s.mq.peerWants.sent ∨ w ∈ s.mq.bcstWants.sent)

/-- The record a cancel needs: the want was sent, or its cancel is waiting. -/
def Recorded (mq : MessageQueue) (w : Want) : Prop :=
  w ∈ mq.bcstWants.sent ∨ w ∈ mq.peerWants.sent ∨ w ∈ mq.cancels

/-- No step gives up the last record of a want the remote holds: a want that is
cancelled is recorded as sent or as a cancel, and a want-have that is dropped is
recorded elsewhere. -/
def Link.KeepsRecord (s : Link) : Call → Prop
  | .addCancels ks => ∀ w ∈ ks, s.remote w = true → s.mq.Recorded w
  | .extract _ false => ∀ w, s.remote w = true → Dropped s.mq.peerWants w → s.mq.bcstWants.Tracks w
  | _ => True

/-- What holds between calls. -/
structure Link.Inv (s : Link) : Prop where
  held : ∀ w, s.remote w = true → s.mq.Tracked w
  apart : s.mq.Apart
  clear : s.mq.Clear

theorem Link.inv_start (n : Nat) : (Link.start n).Inv :=
  ⟨fun _ h => by simp [start] at h, fun _ h => absurd h (AList.notMem_empty _), fun _ => rfl⟩

theorem pendingWorkCount_eq_zero {mq : MessageQueue} : mq.pendingWorkCount = 0 ↔
    (∀ w, w ∉ mq.bcstWants.pending) ∧ (∀ w, w ∉ mq.peerWants.pending) ∧ ∀ w, w ∉ mq.cancels := by
  simp only [pendingWorkCount, Wantlist.len, Nat.add_eq_zero_iff, GoMap.len_eq_zero, and_assoc]
  rfl

theorem Link.Inv.noLeak {s : Link} (h : s.Inv) : s.NoLeak := by
  refine ⟨h.held, fun hz w hw => ?_⟩
  obtain ⟨hb, hp, hc⟩ := pendingWorkCount_eq_zero.mp hz
  rcases h.held w hw with (h | h) | (h | h) | h
  · exact absurd h (hp w)
  · exact .inl h
  · exact absurd h (hb w)
  · exact .inr h
  · exact absurd h (hc w)

/-! ### The steps keep the invariant -/

section Steps

variable {s : Link}

theorem apart_addWant {mq : MessageQueue} (t : WantType) (c : Want) (h : mq.Apart) :
    (mq.addWant t c).Apart := by
  intro w hw
  obtain ⟨hwc, hw⟩ := GoSet.mem_remove.mp hw
  refine ⟨fun ht => ?_, (h w hw).2⟩
  exact (tracks_add.mp ht).elim hwc (h w hw).1

theorem apart_addBroadcastWantHave {mq : MessageQueue} (c : Want) (h : mq.Apart) :
    (mq.addBroadcastWantHave c).Apart := by
  intro w hw
  obtain ⟨hwc, hw⟩ := GoSet.mem_remove.mp hw
  refine ⟨(h w hw).1, fun ht => ?_⟩
  exact (tracks_add.mp ht).elim hwc (h w hw).2

theorem Link.inv_addWant (t : WantType) (c : Want) (h : s.Inv) :
    Link.Inv { s with mq := s.mq.addWant t c } := by
  refine ⟨fun w hw => ?_, apart_addWant t c h.apart, h.clear⟩
  by_cases hwc : w = c
  · exact .inl (tracks_add.mpr (.inl hwc))
  · rcases h.held w hw with h | h | h
    · exact .inl (tracks_add.mpr (.inr h))
    · exact .inr (.inl h)
    · exact .inr (.inr (GoSet.mem_remove.mpr ⟨hwc, h⟩))

theorem Link.inv_addBroadcastWantHave (c : Want) (h : s.Inv) :
    Link.Inv { s with mq := s.mq.addBroadcastWantHave c } := by
  refine ⟨fun w hw => ?_, apart_addBroadcastWantHave c h.apart, h.clear⟩
  by_cases hwc : w = c
  · exact .inr (.inl (tracks_add.mpr (.inl hwc)))
  · rcases h.held w hw with h | h | h
    · exact .inl h
    · exact .inr (.inl (tracks_add.mpr (.inr h)))
    · exact .inr (.inr (GoSet.mem_remove.mpr ⟨hwc, h⟩))

/-- What `addCancel` leaves of a want, by whether it is the one cancelled. -/
theorem mem_cancels_addCancel {mq : MessageQueue} {c w : Want} :
    w ∈ (mq.addCancel c).cancels ↔
      w ∈ mq.cancels ∨ (w = c ∧ (c ∈ mq.bcstWants.sent ∨ c ∈ mq.peerWants.sent)) := by
  rw [addCancel]
  dsimp only
  split
  · rename_i h; rw [GoSet.mem_add]; grind
  · rename_i h; grind

theorem recorded_addCancel {mq : MessageQueue} {c w : Want} :
    (mq.addCancel c).Recorded w ↔ mq.Recorded w := by
  unfold Recorded
  rw [mem_cancels_addCancel]
  simp only [addCancel, mem_sent_remove]
  by_cases hw : w = c
  · subst hw; grind
  · grind

theorem tracked_addCancel {mq : MessageQueue} {c w : Want} :
    (mq.addCancel c).Tracked w ↔ if w = c then mq.Recorded c else mq.Tracked w := by
  unfold Tracked
  rw [mem_cancels_addCancel]
  simp only [addCancel, tracks_remove]
  split
  · rename_i hw; subst hw; rw [Recorded]; grind
  · grind

theorem apart_addCancel {mq : MessageQueue} {c : Want} (h : mq.Apart) : (mq.addCancel c).Apart := by
  intro w hw
  simp only [addCancel, tracks_remove]
  rcases mem_cancels_addCancel.mp hw with hw | ⟨rfl, _⟩
  · exact ⟨fun ht => (h w hw).1 ht.2, fun ht => (h w hw).2 ht.2⟩
  · simp

/-- After a cancel of several wants, those named are tracked just if a record
called for a cancel, and the others as before. -/
theorem tracked_addCancels : ∀ (ks : List Want) (mq : MessageQueue) (w : Want),
    (mq.addCancels ks).Tracked w ↔ if w ∈ ks then mq.Recorded w else mq.Tracked w
  | [], mq, w => by simp [addCancels]
  | k :: ks, mq, w => by
      have ih := tracked_addCancels ks (mq.addCancel k) w
      rw [recorded_addCancel, tracked_addCancel] at ih
      show (addCancels (mq.addCancel k) ks).Tracked w ↔ _
      rw [ih]
      by_cases hk : w = k
      · subst hk; simp
      · simp [hk]

theorem apart_addCancels : ∀ (ks : List Want) {mq : MessageQueue}, mq.Apart →
    (mq.addCancels ks).Apart
  | [], _, h => h
  | _ :: ks, _, h => apart_addCancels ks (apart_addCancel h)

theorem clear_addCancels : ∀ (ks : List Want) {mq : MessageQueue}, mq.Clear →
    (mq.addCancels ks).Clear
  | [], _, h => h
  | k :: ks, mq, h => @clear_addCancels ks (mq.addCancel k) h

theorem tracks_absorb {r : RecallWantlist} {o : RangeOrder} {w : Want} :
    RecallWantlist.Tracks { r with pending := r.pending.absorb o r.sent } w ↔ r.Tracks w := by
  simp only [RecallWantlist.Tracks, mem_absorb]
  grind

theorem apart_transferRebroadcastWants {mq : MessageQueue} (ob op : RangeOrder) (h : mq.Apart) :
    (mq.transferRebroadcastWants ob op).Apart := by
  rw [transferRebroadcastWants]
  split
  · exact h
  · intro w hw
    simp only [tracks_absorb]
    exact h w hw

theorem Link.inv_rebroadcast (ob op : RangeOrder) (h : s.Inv) :
    Link.Inv { s with mq := s.mq.transferRebroadcastWants ob op } := by
  have hapart := apart_transferRebroadcastWants ob op h.apart
  revert hapart
  rw [transferRebroadcastWants]
  split
  · exact fun _ => h
  · intro hapart
    refine ⟨fun w hw => ?_, hapart, h.clear⟩
    simp only [Tracked, tracks_absorb]
    exact h.held w hw

theorem Link.inv_foldl {f : MessageQueue → Want → MessageQueue}
    (hf : ∀ {s : Link} (c : Want), s.Inv → Link.Inv { s with mq := f s.mq c }) :
    ∀ (cs : List Want) {s : Link}, s.Inv → Link.Inv { s with mq := cs.foldl f s.mq }
  | [], _, h => h
  | c :: cs, _, h => inv_foldl hf cs (hf c h)

theorem Link.inv_step (a : Call) (h : s.Inv) (hok : s.KeepsRecord a) : (s.step a).Inv := by
  cases a with
  | addWants bs hs =>
      exact inv_foldl (inv_addWant .wantBlock) bs (inv_foldl (inv_addWant .wantHave) hs h)
  | addBroadcastWantHaves hs => exact inv_foldl inv_addBroadcastWantHave hs h
  | addCancels ks =>
      refine ⟨fun w hw => (tracked_addCancels ks s.mq w).mpr ?_, apart_addCancels ks h.apart,
        clear_addCancels ks h.clear⟩
      split
      · rename_i hk; exact hok w hk hw
      · exact h.held w hw
  | rebroadcast ob op => exact inv_rebroadcast ob op h
  | extract o sup =>
      have he := extract_spec o sup h.apart h.clear
      refine ⟨fun w hw => ?_, fun w hw => ?_, he.clear⟩
      · cases hf : (s.mq.extract o sup).2.flag w with
        | some cancel =>
            have hc : cancel = false := by simpa [step, deliver, hf] using hw
            subst hc
            exact (he.asked w hf).imp_right .inl
        | none =>
            have hr : s.remote w = true := by simpa [step, deliver, hf] using hw
            rcases h.held w hr with ht | ht | ht
            · by_cases hd : sup = false ∧ Dropped s.mq.peerWants w
              · obtain ⟨rfl, hd⟩ := hd
                exact .inr (.inl ((he.bcstWants w).mpr (hok w hr hd)))
              · exact .inl ((he.peerWants w).mpr ⟨ht, hd⟩)
            · exact .inr (.inl ((he.bcstWants w).mpr ht))
            · rcases he.kept w ht with hk | hk
              · simp [hf] at hk
              · exact .inr (.inr hk)
      · have hap := h.apart w (he.cancels w hw)
        exact ⟨fun ht => hap.1 ((he.peerWants w).mp ht).1, fun ht => hap.2 ((he.bcstWants w).mp ht)⟩

/-- A step that gives up the last record leaks the want. -/
theorem Link.leak_of_not_keepsRecord (a : Call) (h : s.Inv) (hno : ¬ s.KeepsRecord a) :
    ¬ (s.step a).NoLeak := by
  rintro ⟨hheld, -⟩
  cases a with
  | addWants bs hs => exact hno trivial
  | addBroadcastWantHaves hs => exact hno trivial
  | addCancels ks =>
      refine hno fun w hk hw => ?_
      have ht := (tracked_addCancels ks s.mq w).mp (hheld w hw)
      rwa [if_pos hk] at ht
  | rebroadcast ob op => exact hno trivial
  | extract o sup =>
      cases sup with
      | true => exact hno trivial
      | false =>
          have he := extract_spec o false h.apart h.clear
          refine hno fun w hw hd => ?_
          by_contra hnb
          -- the message says nothing of the want, so the remote goes on holding it
          have hf := he.dropped w rfl hd hnb
          have hr : deliver s.remote (s.mq.extract o false).2 w = true := by
            simpa [deliver, hf] using hw
          have hpend : s.mq.peerWants.Tracks w :=
            hd.1.elim fun e he' => .inl (mem_iff.mpr ⟨e, he'.1⟩)
          rcases hheld w hr with ht | ht | ht
          · exact ((he.peerWants w).mp ht).2 ⟨rfl, hd⟩
          · exact hnb ((he.bcstWants w).mp ht)
          · exact (h.apart w (he.cancels w ht)).1 hpend

end Steps

/-- **No leak, exactly.**  Along a run of a queue no want is leaked if and only
if no step gives up the last record of a want the remote holds. -/
theorem always_noLeak_iff (n : Nat) (calls : List Call) :
    Always Link.step Link.NoLeak (.start n) calls ↔
      Meets Link.step Link.KeepsRecord (.start n) calls :=
  always_iff_meets (I := Link.Inv) (fun _ h => h.noLeak) (fun _ a h hok => Link.inv_step a h hok)
    (fun _ a h hno => Link.leak_of_not_keepsRecord a h hno) calls (Link.inv_start n)

/-- A want that is sent, cancelled, wanted again and cancelled again before the
next message stays with the remote and is recorded nowhere. -/
theorem leak_of_second_cancel :
    let w : Want := ⟨⟨[1]⟩, []⟩
    let o : Orders := ⟨.stored, .stored, .stored⟩
    let s := run Link.step (.start 1000)
      [.addWants [w] [], .extract o true, .addCancels [w], .addWants [w] [], .addCancels [w]]
    s.remote w = true ∧ s.mq.pendingWorkCount = 0 ∧ w ∉ s.mq.peerWants.sent ∧
      w ∉ s.mq.bcstWants.sent ∧ ¬ s.NoLeak := by
  intro w o s
  have hr : s.remote w = true := by decide
  have hz : s.mq.pendingWorkCount = 0 := by decide
  have hp : w ∉ s.mq.peerWants.sent := by decide
  have hb : w ∉ s.mq.bcstWants.sent := by decide
  exact ⟨hr, hz, hp, hb, fun h => (h.2 hz w hr).elim hp hb⟩

end MessageQueue

end BitswapAuth
