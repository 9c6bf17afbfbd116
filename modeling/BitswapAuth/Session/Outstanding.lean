/-
# `BitswapAuth.Session.Outstanding` — one want-block at a time

For each want the sender asks one peer for the block and the other peers of the
session whether they have it.  Here the calls of a turn are read off the state
the first four passes leave: a want-block goes to the best peer of a want that
nothing is outstanding for, once, and a want-have goes to everybody else
(`sends_sendNextWants`).  A want that waits for a peer is not sent again
(`waits_turn`), so between two want-blocks the peer that got the first has
answered DONT_HAVE or has left the session.
-/
import BitswapAuth.Session.Calls
import BitswapAuth.Session.Starvation

namespace BitswapAuth

open Lib

namespace SessionWantSender

/-! ## What the calls send -/

/-- The peers that a want-block for the want is sent to. -/
def blockSends (w : Want) (calls : List Effect) : List PeerID :=
  calls.filterMap fun
    | .sendWants p wantBlocks _ => if w ∈ wantBlocks then some p else none
    | _ => none

/-- The peers that a want-have for the want is sent to. -/
def haveSends (w : Want) (calls : List Effect) : List PeerID :=
  calls.filterMap fun
    | .sendWants p _ wantHaves => if w ∈ wantHaves then some p else none
    | _ => none

theorem blockSends_append (w : Want) (xs ys : List Effect) :
    blockSends w (xs ++ ys) = blockSends w xs ++ blockSends w ys :=
  List.filterMap_append

theorem haveSends_append (w : Want) (xs ys : List Effect) :
    haveSends w (xs ++ ys) = haveSends w xs ++ haveSends w ys :=
  List.filterMap_append

/-- A want-block goes to the peers whose set has the want. -/
theorem blockSends_foldl_sendTo (w : Want) : ∀ (l : List (PeerID × WantSets))
    (s : SessionWantSender × List Effect), blockSends w (l.foldl sendTo s).2 =
      blockSends w s.2 ++ (l.filter fun e => e.2.wantBlocks.has w).map Prod.fst
  | [], s => by simp
  | e :: l, s => by
      have hone : blockSends w (sendTo s e).2 =
          blockSends w s.2 ++ ([e].filter fun e => e.2.wantBlocks.has w).map Prod.fst := by
        rw [sendTo, blockSends_append]
        refine congrArg (blockSends w s.2 ++ ·) ?_
        by_cases hw : w ∈ e.2.wantBlocks
        · have hk : w ∈ e.2.wantBlocks.keys := hw
          simp [blockSends, hk, GoSet.has_eq_true.mpr hw]
        · have hk : w ∉ e.2.wantBlocks.keys := hw
          simp [blockSends, hk, GoSet.has_eq_false.mpr hw]
      rw [List.foldl_cons, blockSends_foldl_sendTo w l, hone, List.append_assoc,
        ← List.map_append, ← List.filter_append]
      rfl

theorem mem_haveSends_foldl_sendTo {w : Want} {q : PeerID} : ∀ (l : List (PeerID × WantSets))
    (s : SessionWantSender × List Effect),
    (q ∈ haveSends w s.2 ∨ ∃ e ∈ l, e.1 = q ∧ w ∈ e.2.wantHaves) →
      q ∈ haveSends w (l.foldl sendTo s).2
  | [], s, h => by simpa using h
  | e :: l, s, h => by
      refine mem_haveSends_foldl_sendTo l (sendTo s e) ?_
      have hadd : (sendTo s e).2 = s.2 ++ _ := rfl
      rw [hadd, haveSends_append]
      rcases h with h | ⟨e', he', hq, hw⟩
      · exact .inl (List.mem_append_left _ h)
      · rcases List.mem_cons.mp he' with rfl | he'
        · subst hq
          refine .inl (List.mem_append_right _ ?_)
          have hmem : w ∈ (s.1.getPiggybackWantHaves e'.1 e'.2.wantBlocks).foldl GoSet.add
              e'.2.wantHaves := (GoSet.mem_foldl_add _ _ w).mpr (.inl hw)
          have hk : w ∈ ((s.1.getPiggybackWantHaves e'.1 e'.2.wantBlocks).foldl GoSet.add
              e'.2.wantHaves).keys := hmem
          simp [haveSends, hk]
        · exact .inr ⟨e', he', hq, hw⟩

/-! ## Want-haves for the other peers -/

theorem mem_wantHaves_addWantHave (w : Want) (aw : AllWants) (q p : PeerID) (w' : Want) :
    w' ∈ ((AllWants.addWantHave w aw q).forPeer p).wantHaves ↔
      (p = q ∧ w' = w) ∨ w' ∈ (aw.forPeer p).wantHaves := by
  rw [AllWants.addWantHave, AllWants.forPeer, GoMap.getD_insert_ite]
  split
  · rename_i h; subst h; simp
  · rename_i h; simp [h, AllWants.forPeer]

theorem wantHaves_addWantBlock (w : Want) (aw : AllWants) (q p : PeerID) :
    ((AllWants.addWantBlock w aw q).forPeer p).wantHaves =
      (aw.forPeer p).wantHaves := by
  rw [AllWants.addWantBlock, AllWants.forPeer, GoMap.getD_insert_ite]
  split
  · rename_i h; subst h; rfl
  · rfl

theorem mem_wantHaves_foldl_addWantHave (w : Want) (p : PeerID) (w' : Want) :
    ∀ (qs : List PeerID) (aw : AllWants),
      w' ∈ ((qs.foldl (AllWants.addWantHave w) aw).forPeer p).wantHaves ↔
        (p ∈ qs ∧ w' = w) ∨ w' ∈ (aw.forPeer p).wantHaves
  | [], aw => by simp
  | q :: qs, aw => by
      rw [List.foldl_cons, mem_wantHaves_foldl_addWantHave w p w' qs, mem_wantHaves_addWantHave,
        List.mem_cons]
      tauto

/-- A round takes no want-have out of the sets. -/
theorem mem_wantHaves_nextWant {na : List PeerID} {s : SessionWantSender × AllWants} {a w : Want}
    {q : PeerID} (h : w ∈ (s.2.forPeer q).wantHaves) :
    w ∈ ((nextWant na s a).2.forPeer q).wantHaves := by
  have hna := (mem_wantHaves_foldl_addWantHave a q w na s.2).mpr (.inr h)
  rw [nextWant]
  split
  · exact h
  · dsimp only
    split
    · exact hna
    · split
      · exact hna
      · rw [mem_wantHaves_foldl_addWantHave, wantHaves_addWantBlock]
        exact .inr hna

/-- The round that puts a want-block into the sets puts in want-haves for the others. -/
theorem mem_wantHaves_nextWant_of_asks {na : List PeerID} {s : SessionWantSender × AllWants}
    {w : Want} {p q : PeerID} (h : s.1.Asks p w) (hq : q ∈ s.1.spm.peers) (hne : q ≠ p) :
    w ∈ ((nextWant na s w).2.forPeer q).wantHaves := by
  obtain ⟨hp, wi, hwi, hsent, rfl⟩ := h
  have hkeys : q ∈ s.1.spm.peers.keys := hq
  simp only [nextWant, hwi, hsent, ne_eq, not_true_eq_false, if_false, hp]
  rw [mem_wantHaves_foldl_addWantHave]
  refine .inl ⟨List.mem_filter.mpr ⟨mem_ranging.mpr hkeys, ?_⟩, rfl⟩
  simpa using hne

theorem mem_wantHaves_foldl_nextWant (na : List PeerID) {w : Want} {p q : PeerID} (hne : q ≠ p) :
    ∀ (l : List Want) (s : SessionWantSender × AllWants), w ∈ l → s.1.Asks p w →
      q ∈ s.1.spm.peers → w ∈ ((l.foldl (nextWant na) s).2.forPeer q).wantHaves
  | a :: l, s, hw, hasks, hq => by
      rw [List.foldl_cons]
      by_cases ha : w = a
      · subst ha
        have hmem := @mem_wantHaves_nextWant_of_asks na s w p q hasks hq hne
        have hkeep : ∀ (s : SessionWantSender × AllWants) (a : Want),
            w ∈ (s.2.forPeer q).wantHaves →
              w ∈ ((nextWant na s a).2.forPeer q).wantHaves :=
          fun s a h => mem_wantHaves_nextWant h
        exact run_invariant hkeep l hmem
      · refine mem_wantHaves_foldl_nextWant na hne l _ ((List.mem_cons.mp hw).resolve_left ha) ?_ ?_
        · obtain ⟨hp, wi, hwi, h⟩ := hasks
          exact ⟨hp, wi, by rw [lookup_nextWant, if_neg ha, hwi], h⟩
        · rw [(Frame.of_aside (aside_nextWant na s a)).peers]
          exact hq

/-! ## The calls of a turn -/

/-- A want-block goes to a peer just if the want is to be sent to it, at most one for
each want, and with it want-haves to all other peers of the session. -/
structure Sends (sws : SessionWantSender) (calls : List Effect) : Prop where
  blocks : ∀ w p, p ∈ blockSends w calls ↔ sws.Asks p w
  once : ∀ w, (blockSends w calls).length ≤ 1
  haves : ∀ w p, sws.Asks p w → ∀ q ∈ sws.spm.peers, q ≠ p → q ∈ haveSends w calls

/-- A want is to be sent to one peer only. -/
theorem Asks.unique {sws : SessionWantSender} {w : Want} {p q : PeerID} (hp : sws.Asks p w)
    (hq : sws.Asks q w) : p = q := by
  obtain ⟨-, wi, hwi, -, rfl⟩ := hp
  obtain ⟨-, wi', hwi', -, rfl⟩ := hq
  rw [Option.some.inj (hwi.symm.trans hwi')]

/-- What the loop of `sendNextWants` has gathered for the peers. -/
def gathered (na : List PeerID) (sws : SessionWantSender) : SessionWantSender × AllWants :=
  (sws.ranging sws.wants.keys).foldl (nextWant na) (sws.next, ∅)

theorem Asks.mem_ranging {sws : SessionWantSender} {w : Want} {p : PeerID} (h : sws.Asks p w) :
    w ∈ sws.ranging sws.wants.keys := by
  obtain ⟨-, wi, hwi, -⟩ := h
  exact SessionWantSender.mem_ranging.mpr (GoMap.mem_of_lookup hwi)

section Sending

variable (na : List PeerID) (sws : SessionWantSender) (w : Want)

theorem blockSends_sendNextWants : blockSends w (sws.sendNextWants na).2 =
    (((gathered na sws).1.ranging (gathered na sws).2.pairs).filter
      fun e => e.2.wantBlocks.has w).map Prod.fst :=
  blockSends_foldl_sendTo w _ ((gathered na sws).1.next, [])

theorem mem_blockSends_sendNextWants (p : PeerID) :
    p ∈ blockSends w (sws.sendNextWants na).2 ↔ sws.Asks p w := by
  have hnd : (sws.ranging sws.wants.keys).Nodup :=
    (sws.ranging_perm _).nodup_iff.mpr sws.wants.keys_nodup
  have hforPeer := mem_wantBlocks_foldl_nextWant na p w _ (sws.next, ∅) hnd
  rw [← gathered, ← AllWants.exists_mem_pairs (f := WantSets.wantBlocks) (AList.notMem_empty w)]
    at hforPeer
  rw [blockSends_sendNextWants]
  simp only [List.mem_map, List.mem_filter, mem_ranging, GoSet.has_eq_true]
  constructor
  · rintro ⟨e, ⟨he, hw⟩, rfl⟩
    rcases hforPeer.mp ⟨e, he, rfl, hw⟩ with h | ⟨-, h⟩
    · exact absurd h (AList.notMem_empty w)
    · exact h
  · intro h
    obtain ⟨e, he, rfl, hw⟩ := hforPeer.mpr (.inr ⟨h.mem_ranging, h⟩)
    exact ⟨e, ⟨he, hw⟩, rfl⟩

theorem nodup_blockSends_sendNextWants : (blockSends w (sws.sendNextWants na).2).Nodup := by
  have hpairs : (((gathered na sws).1.ranging (gathered na sws).2.pairs).map Prod.fst).Nodup := by
    refine ((ranging_perm _ (gathered na sws).2.pairs).map Prod.fst).nodup_iff.mpr ?_
    rw [GoMap.map_fst_pairs]
    exact (gathered na sws).2.keys_nodup
  rw [blockSends_sendNextWants]
  exact hpairs.sublist (List.filter_sublist.map _)

/-- The peers that are sent the want-block are all different, and all the same. -/
theorem length_blockSends_sendNextWants : (blockSends w (sws.sendNextWants na).2).length ≤ 1 := by
  have hnd := nodup_blockSends_sendNextWants na sws w
  have hasks := mem_blockSends_sendNextWants na sws w
  cases hb : blockSends w (sws.sendNextWants na).2 with
  | nil => exact Nat.zero_le 1
  | cons p ps =>
      cases ps with
      | nil => exact le_refl 1
      | cons q ps =>
          rw [hb] at hnd hasks
          have hp := (hasks p).mp List.mem_cons_self
          have hq := (hasks q).mp (List.mem_cons_of_mem p List.mem_cons_self)
          rw [hp.unique hq] at hnd
          exact absurd List.mem_cons_self (List.nodup_cons.mp hnd).1

theorem mem_haveSends_sendNextWants {p q : PeerID} (h : sws.Asks p w) (hq : q ∈ sws.spm.peers)
    (hne : q ≠ p) : q ∈ haveSends w (sws.sendNextWants na).2 := by
  have hmem := mem_wantHaves_foldl_nextWant na hne _ (sws.next, ∅) h.mem_ranging h hq
  rw [← gathered, ← AllWants.exists_mem_pairs (f := WantSets.wantHaves) (AList.notMem_empty w)]
    at hmem
  obtain ⟨e, he, hq, hw⟩ := hmem
  exact mem_haveSends_foldl_sendTo _ ((gathered na sws).1.next, [])
    (.inr ⟨e, mem_ranging.mpr he, hq, hw⟩)

theorem sends_sendNextWants : Sends sws (sws.sendNextWants na).2 where
  blocks w p := mem_blockSends_sendNextWants na sws w p
  once w := length_blockSends_sendNextWants na sws w
  haves w _ h _ hq hne := mem_haveSends_sendNextWants na sws w h hq hne

end Sending

theorem blockSends_settle (bpm : BlockPresenceManager) (changes : List Change)
    (sws : SessionWantSender) (w : Want) : blockSends w (sws.settle bpm changes).calls = [] := by
  refine List.filterMap_eq_nil_iff.mpr fun e he => ?_
  rcases mem_calls_settle he with ⟨p, rfl⟩ | ⟨p, -, rfl⟩ | ⟨ws, rfl⟩ | ⟨-, rfl⟩ <;> rfl

section Turn

variable {sws : SessionWantSender} {b : Batch} {w : Want} {p : PeerID}

/-- The calls of one `onChange`. -/
def calls (sws : SessionWantSender) (b : Batch) : List Effect := (sws.onChange b.bpm b.changes).2

/-- What a turn sends, by the state before anything is sent. -/
theorem calls_cases (sws : SessionWantSender) (b : Batch) :
    (∀ w, blockSends w (sws.calls b) = []) ∨
      ∃ sent, sws.calls b = (sws.settle b.bpm b.changes).calls ++ sent ∧
        Sends (sws.settle b.bpm b.changes).sws sent ∧
        SentOut (sws.settle b.bpm b.changes).sws (sws.turn b) := by
  rw [calls, turn]
  rcases onChange_cases b.bpm b.changes sws with ⟨-, sws', sent, hsend, hturn⟩ | ⟨-, hturn⟩
  · have hsends := sends_sendNextWants (sws.settle b.bpm b.changes).newlyAvailable
      (sws.settle b.bpm b.changes).sws
    have hout := sentOut_sendNextWants (sws.settle b.bpm b.changes).newlyAvailable
      (sws.settle b.bpm b.changes).sws
    rw [hsend] at hsends hout
    rw [hturn]
    exact .inr ⟨sent, rfl, hsends, hout⟩
  · rw [hturn]
    exact .inl fun w => blockSends_settle _ _ _ w

/-- A want-block is sent only if nothing is outstanding, and then the want waits for the
peer. -/
theorem asks_of_mem_blockSends (h : p ∈ blockSends w (sws.calls b)) :
    (sws.settle b.bpm b.changes).sws.Asks p w ∧
      ∃ wi, (sws.turn b).wants.lookup w = some wi ∧ wi.sentTo = p := by
  rcases sws.calls_cases b with hnone | ⟨sent, hcalls, hsends, hout⟩
  · rw [hnone] at h
    cases h
  · rw [hcalls, blockSends_append, blockSends_settle, List.nil_append, hsends.blocks] at h
    obtain ⟨-, wi, hwi, hto, hbest⟩ := id h
    refine ⟨h, ask wi, by rw [hout.wants, hwi]; rfl, ?_⟩
    exact (if_pos hto).trans hbest

/-- At most one want-block goes out for a want. -/
theorem length_blockSends_le (sws : SessionWantSender) (b : Batch) (w : Want) :
    (blockSends w (sws.calls b)).length ≤ 1 := by
  rcases sws.calls_cases b with hnone | ⟨sent, hcalls, hsends, -⟩
  · rw [hnone]
    exact Nat.zero_le 1
  · rw [hcalls, blockSends_append, blockSends_settle, List.nil_append]
    exact hsends.once w

/-- With a want-block go want-haves to the other peers of the session. -/
theorem mem_haveSends_of_blockSends (h : p ∈ blockSends w (sws.calls b)) {q : PeerID}
    (hq : q ∈ (sws.turn b).spm.peers) (hne : q ≠ p) : q ∈ haveSends w (sws.calls b) := by
  rcases sws.calls_cases b with hnone | ⟨sent, hcalls, hsends, hout⟩
  · rw [hnone] at h
    cases h
  · rw [hcalls, blockSends_append, blockSends_settle, List.nil_append, hsends.blocks] at h
    rw [hout.peers] at hq
    rw [hcalls, haveSends_append]
    exact List.mem_append_right _ (hsends.haves w p h q hq hne)

/-- A want that stays tracked goes on waiting for a peer that does not answer DONT_HAVE
and does not leave, and is not sent again. -/
theorem waits_turn {wi : WantInfo} (hwi : sws.wants.lookup w = some wi) (hp : wi.sentTo = p)
    (hne : p ≠ .empty) (hkept : Kept b.changes w) (htracked : w ∈ (sws.turn b).wants)
    (hr : ¬ sws.Releases b.changes w p) :
    (∃ wi', (sws.turn b).wants.lookup w = some wi' ∧ wi'.sentTo = p) ∧
      blockSends w (sws.calls b) = [] := by
  have hstart : sws.Starts b.bpm b.changes w wi.view :=
    .inl ⟨hkept, view_eq_some.mpr ⟨wi, hwi, rfl⟩⟩
  have hto : wi.view.sentTo = p := hp
  constructor
  · obtain ⟨wi', hwi'⟩ := GoMap.mem_iff_lookup.mp htracked
    obtain ⟨v₀, v, ho⟩ := (turn_onChange b.bpm b.changes sws).want w wi' hwi'
    obtain rfl := ho.starts.unique hstart
    have hv : v.sentTo = p := (ho.became.waits (by rwa [hto])).trans hto
    exact ⟨wi', hwi', (ho.waits (by rwa [hv])).trans hv⟩
  · refine List.eq_nil_iff_forall_not_mem.mpr fun q hq => ?_
    obtain ⟨⟨-, wi₁, hwi₁, hempty, -⟩, -⟩ := asks_of_mem_blockSends hq
    obtain ⟨v₀, v, hs, hb, -, hv₁, -⟩ := (settles_settle b.bpm b.changes sws).want w wi₁.view
      (view_eq_some.mpr ⟨wi₁, hwi₁, rfl⟩)
    obtain rfl := hs.unique hstart
    have hv : v.sentTo = p := (hb.waits (by rwa [hto])).trans hto
    exact hne (hv.symm.trans (hv₁.symm.trans hempty))

end Turn

/-! ## Runs -/

/-- A turn of a run: the state before it, and the batch. -/
structure Round where
  before : SessionWantSender
  batch : Batch

namespace Round

/-- The state after the turn. -/
def after (r : Round) : SessionWantSender := r.before.turn r.batch

/-- The calls made in the turn. -/
def calls (r : Round) : List Effect := r.before.calls r.batch

/-- The want stays tracked. -/
def Keeps (r : Round) (w : Want) : Prop := Kept r.batch.changes w ∧ w ∈ r.after.wants

/-- A DONT_HAVE for the want from the peer is processed. -/
def Denied (r : Round) (w : Want) (p : PeerID) : Prop :=
  Denies (updatesOf r.batch.changes) w p

/-- The peer is removed from the session. -/
def Removed (r : Round) (p : PeerID) : Prop := r.before.Leaving r.batch.changes p

end Round

/-- The turns of a run. -/
def rounds : SessionWantSender → List Batch → List Round
  | _, [] => []
  | sws, b :: bs => ⟨sws, b⟩ :: rounds (sws.turn b) bs

/-- While a want waits for a peer that neither answers DONT_HAVE nor leaves, it is not
sent again. -/
theorem not_sent_while_waiting {w : Want} {p : PeerID} (hne : p ≠ .empty) :
    ∀ (bs : List Batch) (sws : SessionWantSender) (ys zs : List Round) (r : Round),
      (∃ wi, sws.wants.lookup w = some wi ∧ wi.sentTo = p) → rounds sws bs = ys ++ r :: zs →
      (∀ t ∈ ys ++ [r], t.Keeps w) → (∀ t ∈ ys ++ [r], ¬ (t.Denied w p ∨ t.Removed p)) →
      blockSends w r.calls = []
  | [], _, ys, _, _, _, hrs, _, _ => by cases ys <;> cases hrs
  | b :: bs, sws, ys, zs, r, ⟨wi, hwi, hto⟩, hrs, hkeeps, hno => by
      have hturn : Round.Keeps ⟨sws, b⟩ w →
          ¬ (Round.Denied ⟨sws, b⟩ w p ∨ Round.Removed ⟨sws, b⟩ p) →
          (∃ wi', (sws.turn b).wants.lookup w = some wi' ∧ wi'.sentTo = p) ∧
            blockSends w (sws.calls b) = [] := fun hk hn =>
        waits_turn hwi hto hne hk.1 hk.2 fun hr => hn (hr.elim .inr fun h => .inl h.1)
      cases ys with
      | nil =>
          obtain ⟨rfl, -⟩ := List.cons.inj hrs
          exact (hturn (hkeeps _ List.mem_cons_self) (hno _ List.mem_cons_self)).2
      | cons y ys =>
          obtain ⟨rfl, hrs'⟩ := List.cons.inj hrs
          have hw := (hturn (hkeeps _ List.mem_cons_self) (hno _ List.mem_cons_self)).1
          exact not_sent_while_waiting hne bs (sws.turn b) ys zs r hw hrs'
            (fun t ht => hkeeps t (List.mem_cons_of_mem _ ht))
            (fun t ht => hno t (List.mem_cons_of_mem _ ht))

/-- The turns after a turn are those of a run from the state it left. -/
theorem rounds_split : ∀ (bs : List Batch) (sws : SessionWantSender) (xs ys : List Round)
    (r : Round), rounds sws bs = xs ++ r :: ys → ∃ bs', rounds r.after bs' = ys
  | [], _, xs, _, _, h => by cases xs <;> cases h
  | b :: bs, sws, xs, ys, r, h => by
      cases xs with
      | nil =>
          obtain ⟨rfl, h'⟩ := List.cons.inj h
          exact ⟨bs, h'⟩
      | cons x xs =>
          obtain ⟨-, h'⟩ := List.cons.inj h
          exact rounds_split bs (sws.turn b) xs ys r h'

/-- **At most one want-block is outstanding for a want.**  In every run, a turn sends at
most one want-block for a want, and with it a want-have to every other peer then
in the session; and if the want stays tracked from one want-block to a later one,
then meanwhile the peer that got the first has answered DONT_HAVE or was removed
from the session. -/
theorem one_wantBlock_outstanding (sid : SessionID) (rng : Nat → Draw) (batches : List Batch)
    (w : Want) :
    let rs := rounds (new sid rng) batches
    (∀ r ∈ rs, (blockSends w r.calls).length ≤ 1) ∧
      (∀ r ∈ rs, ∀ p ∈ blockSends w r.calls, ∀ q ∈ r.after.spm.peers, q ≠ p →
        q ∈ haveSends w r.calls) ∧
      ∀ xs r ys r' zs, rs = xs ++ r :: (ys ++ r' :: zs) →
        ∀ p ∈ blockSends w r.calls, ∀ q ∈ blockSends w r'.calls,
          (∀ t ∈ ys ++ [r'], t.Keeps w) → ∃ t ∈ ys ++ [r'], t.Denied w p ∨ t.Removed p := by
  intro rs
  refine ⟨fun r _ => length_blockSends_le r.before r.batch w,
    fun r _ p hp q hq hne => mem_haveSends_of_blockSends hp hq hne, ?_⟩
  intro xs r ys r' zs hrs p hp q hq hkeeps
  by_contra hno
  have hno' : ∀ t ∈ ys ++ [r'], ¬ (t.Denied w p ∨ t.Removed p) := fun t ht h => hno ⟨t, ht, h⟩
  obtain ⟨⟨hne, -⟩, hw⟩ := asks_of_mem_blockSends hp
  obtain ⟨bs, hbs⟩ := rounds_split batches (new sid rng) xs _ r hrs
  rw [not_sent_while_waiting hne bs r.after ys zs r' hw hbs hkeeps hno'] at hq
  cases hq

/-- A want-block that is answered DONT_HAVE goes to the other peer. -/
theorem one_wantBlock_outstanding_denied :
    let w : Want := ⟨⟨[1]⟩, []⟩
    let p : PeerID := ⟨[7]⟩
    let q : PeerID := ⟨[8]⟩
    let bpm := BlockPresenceManager.new
    let bs : List Batch := [⟨bpm, [{ add := [w] }, { update := ⟨p, [], [⟨⟨[2]⟩, []⟩], []⟩ }]⟩,
      ⟨bpm, [{ update := ⟨q, [], [⟨⟨[2]⟩, []⟩], []⟩ }]⟩,
      ⟨bpm.receiveFrom p [] [w], [{ update := ⟨p, [], [], [w]⟩ }]⟩]
    let rs := rounds (new 1 fun _ => .plain) bs
    rs.map (fun r => blockSends w r.calls) = [[p], [], [q]] ∧
      ∀ r ∈ rs, (blockSends w r.calls).length ≤ 1 := by
  intro w p q bpm bs rs
  exact ⟨by decide, (one_wantBlock_outstanding 1 (fun _ => .plain) bs w).1⟩

end SessionWantSender

end BitswapAuth
