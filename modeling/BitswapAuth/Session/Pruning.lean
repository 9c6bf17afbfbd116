/-
# `BitswapAuth.Session.Pruning` — peers that are pruned for DONT_HAVEs in a row

`peerConsecutiveDontHaves` counts the DONT_HAVEs of a peer since its last block or
HAVE, and a peer that goes past `peerDontHaveLimit` is signalled as unavailable.
But the updates of a batch are gone through three times:

    blocks        clear the count of their sender
    DONT_HAVEs    raise it, and at the limit the sender is to be pruned
    HAVEs         clear it, and the sender is not to be pruned

A block clears the count before every DONT_HAVE of its batch, those queued ahead
of it too, which are then in one row with those behind it: `pruned_across_block`.

`pruned_for_streak`: that is the only way.  As long as no block of a peer is queued
behind a DONT_HAVE of its own in one batch, unless the batch has a HAVE of the peer
as well, a peer is pruned for a row of DONT_HAVEs that ends in the batch.
-/
import BitswapAuth.Session.Outstanding
import Mathlib.Data.List.Induction

namespace BitswapAuth

open Lib

/-! ## What a peer says -/

/-- An item of an update. -/
inductive Item where
  | BLOCK
  | HAVE
  | DONT_HAVE
  deriving DecidableEq

/-- The items of an update, in one of their orders. -/
def Update.said (u : Update) : List Item :=
  List.replicate u.ks.length .BLOCK ++ List.replicate u.haves.length .HAVE ++
    List.replicate u.dontHaves.length .DONT_HAVE

/-- The items of the updates, in the order of the updates; those of one update may come in any
order. -/
def Reading (us : List Update) (l : List Item) : Prop :=
  ∃ ls, List.Forall₂ (fun u l => l.Perm u.said) us ls ∧ l = ls.flatten

theorem reading_said (us : List Update) : Reading us (us.flatMap Update.said) :=
  ⟨us.map Update.said, List.forall₂_map_right_iff.mpr (List.forall₂_same.mpr fun _ _ => .refl _),
    List.flatMap_def⟩

/-- Updates of one kind of items each have one reading. -/
theorem Reading.eq_said {us : List Update} {l : List Item} (h : Reading us l)
    (hone : ∀ u ∈ us, ∀ a ∈ u.said, ∀ a' ∈ u.said, a = a') : l = us.flatMap Update.said := by
  obtain ⟨ls, h, rfl⟩ := h
  induction h with
  | nil => rfl
  | @cons u l us ls hperm _ ih =>
      obtain ⟨hu, hone⟩ := List.forall_mem_cons.mp hone
      have hl : l = u.said := hperm.eq_of_pairwise
        (fun a a' ha ha' _ _ => hu a (hperm.mem_iff.mp ha) a' ha')
        (List.pairwise_of_forall fun _ _ => trivial) (List.pairwise_of_forall fun _ _ => trivial)
      rw [List.flatten_cons, List.flatMap_cons, ih hone, hl]

/-- A DONT_HAVE among the new items is the last of a row that is longer than the limit. -/
def EndsStreak (before now : List Item) : Prop :=
  ∃ x y, before ++ now = x ++ List.replicate (peerDontHaveLimit + 1) .DONT_HAVE ++ y ∧
    y.length < now.length

/-- A block with few items on either side of it leaves no room for such a row. -/
theorem not_endsStreak {before now a c : List Item} (h : before ++ now = a ++ .BLOCK :: c)
    (ha : a.length ≤ peerDontHaveLimit) (hc : c.length ≤ peerDontHaveLimit) :
    ¬ EndsStreak before now := by
  rintro ⟨x, y, hrow, -⟩
  rw [h] at hrow
  have hlen := congrArg List.length hrow
  simp only [List.length_append, List.length_cons, List.length_replicate] at hlen
  -- the row covers the place of the block
  have hat : (x ++ List.replicate (peerDontHaveLimit + 1) Item.DONT_HAVE ++ y)[a.length]? =
      some .DONT_HAVE := by
    rw [List.append_assoc, List.getElem?_append_right (by omega), List.getElem?_append_left
      (by rw [List.length_replicate]; omega), List.getElem?_replicate_of_lt (by omega)]
  rw [← hrow, List.getElem?_append_right (Nat.le_refl _), Nat.sub_self] at hat
  cases hat

/-- The updates of one peer that a batch brings. -/
def Batch.updatesFrom (b : Batch) (p : PeerID) : List Update :=
  (updatesOf b.changes).filter fun u => u.sender = p

/-- After the batches, a DONT_HAVE of the peer in the last one ends a row of them. -/
def SentStreak (p : PeerID) (bs : List Batch) (b : Batch) : Prop :=
  ∃ l₀ l₁, Reading (bs.flatMap fun b => b.updatesFrom p) l₀ ∧ Reading (b.updatesFrom p) l₁ ∧
    EndsStreak l₀ l₁

/-- No block of the peer is queued behind a DONT_HAVE of its own, unless there is a HAVE. -/
def Batch.BlocksFirst (b : Batch) (p : PeerID) : Prop :=
  (∃ u ∈ b.updatesFrom p, u.haves ≠ []) ∨
    (b.updatesFrom p).Pairwise fun u u' => u.dontHaves = [] ∨ u'.ks = []

instance (b : Batch) (p : PeerID) : Decidable (b.BlocksFirst p) :=
  inferInstanceAs (Decidable ((∃ u ∈ b.updatesFrom p, u.haves ≠ []) ∨
    (b.updatesFrom p).Pairwise fun u u' => u.dontHaves = [] ∨ u'.ks = []))

/-- Without HAVEs, and with the blocks first, the peer sends some blocks and then some
DONT_HAVEs. -/
theorem said_of_blocksFirst : ∀ {us : List Update}, (∀ u ∈ us, u.haves = []) →
    us.Pairwise (fun u u' => u.dontHaves = [] ∨ u'.ks = []) →
    us.flatMap Update.said = List.replicate (us.flatMap Update.ks).length .BLOCK ++
      List.replicate (us.flatMap Update.dontHaves).length .DONT_HAVE
  | [], _, _ => rfl
  | u :: us, hh, hp => by
      obtain ⟨hu, hh⟩ := List.forall_mem_cons.mp hh
      obtain ⟨hfirst, hp⟩ := List.pairwise_cons.mp hp
      have ih := said_of_blocksFirst hh hp
      have hsaid : u.said = List.replicate u.ks.length .BLOCK ++
          List.replicate u.dontHaves.length .DONT_HAVE := by
        rw [Update.said, hu]
        simp
      simp only [List.flatMap_cons, ih, hsaid, List.length_append, List.replicate_add,
        List.append_assoc]
      cases hd : u.dontHaves with
      | nil => simp
      | cons w ws =>
          -- behind the DONT_HAVEs of this update there are no blocks
          have hks : us.flatMap Update.ks = [] := List.flatMap_eq_nil_iff.mpr fun u' hu' =>
            (hfirst u' hu').resolve_left (by rw [hd]; exact List.cons_ne_nil w ws)
          rw [hks]
          simp

theorem replicate_suffix {m n : Nat} (h : m ≤ n) :
    List.replicate m Item.DONT_HAVE <:+ List.replicate n .DONT_HAVE :=
  List.suffix_replicate_iff.mpr ⟨by simpa using h, by simp⟩

/-- A row of DONT_HAVEs that the peer has sent, after a batch with the blocks first: it goes on
if there are no blocks, and begins anew if there are. -/
theorem streak_suffix {heard : List Item} {us : List Update} {n : Nat}
    (hh : ∀ u ∈ us, u.haves = [])
    (hp : us.Pairwise fun u u' => u.dontHaves = [] ∨ u'.ks = [])
    (hn : List.replicate n .DONT_HAVE <:+ heard) :
    List.replicate ((if us.flatMap Update.ks = [] then n else 0) +
      (us.flatMap Update.dontHaves).length) .DONT_HAVE <:+ heard ++ us.flatMap Update.said := by
  rw [said_of_blocksFirst hh hp]
  split
  · rename_i hks
    obtain ⟨x, rfl⟩ := hn
    rw [hks, List.replicate_add]
    exact ⟨x, by simp⟩
  · rw [Nat.zero_add, ← List.append_assoc]
    exact List.suffix_append _ _

namespace SessionWantSender

variable {bpm : BlockPresenceManager} {sws : SessionWantSender} {p : PeerID}

/-! ## The count of a peer -/

/-- `peerConsecutiveDontHaves` of the peer. -/
def streak (sws : SessionWantSender) (p : PeerID) : Nat := sws.peerConsecutiveDontHaves.getD p 0

theorem streak_of_byPeer {sws' : SessionWantSender} (h : sws'.byPeer = sws.byPeer) (p : PeerID) :
    sws'.streak p = sws.streak p :=
  congrArg (fun m => m.2.getD p 0) h

theorem streak_of_aside {sws' : SessionWantSender} (h : sws'.aside = sws.aside) (p : PeerID) :
    sws'.streak p = sws.streak p :=
  streak_of_byPeer (byPeer_of_aside h) p

theorem streak_erase (sws : SessionWantSender) (q p : PeerID) :
    streak { sws with peerConsecutiveDontHaves := sws.peerConsecutiveDontHaves.erase q } p =
      if p = q then 0 else sws.streak p :=
  GoMap.getD_erase_ite

/-- A peer that comes or goes has its count cleared. -/
theorem streak_peer_le (s : Shift) (e : PeerID × Bool) (p : PeerID) :
    (Shift.peer bpm s e).sws.streak p ≤ s.sws.streak p := by
  rw [Shift.peer]
  dsimp only
  generalize (if e.2 = true then s.sws.spm.addPeer e.1 else s.sws.spm.removePeer e.1) = r
  split
  · rw [streak_erase]
    split
    · exact Nat.zero_le _
    · have hkept := @aside_updateWantsPeerAvailability bpm e.1 e.2 { s.sws with spm := r.1 }
      exact Nat.le_of_eq (streak_of_aside hkept p)
  · exact Nat.le_refl _

theorem streak_beforeUpdates_le (bpm : BlockPresenceManager) (changes : List Change)
    (sws : SessionWantSender) (p : PeerID) :
    (sws.beforeUpdates bpm changes).streak p ≤ sws.streak p := by
  let I : Shift → Prop := fun s => s.sws.streak p ≤ sws.streak p
  have hone : ∀ s e, I s → I (Shift.peer bpm s e) :=
    fun s e h => Nat.le_trans (streak_peer_le s e p) h
  exact run_invariant hone _ (Nat.le_of_eq (streak_of_aside (aside_collect changes sws) p))

/-- The count of the peer, and whether it is to be pruned. -/
def Answers.tally (s : Answers) (p : PeerID) : Nat × Bool := (s.sws.streak p, s.prunePeers.has p)

/-- What a DONT_HAVE makes of the tally of its sender. -/
def another (t : Nat × Bool) : Nat × Bool :=
  if t.1 = peerDontHaveLimit then (t.1, true) else (t.1 + 1, t.2)

theorem iterate_another {n : Nat} (hn : n ≤ peerDontHaveLimit) (k : Nat) :
    another^[k] (n, false) =
      (min peerDontHaveLimit (n + k), decide (peerDontHaveLimit < n + k)) := by
  induction k with
  | zero => simp [hn]
  | succ k ih =>
      rw [Function.iterate_succ_apply', ih, another]
      split
      · rename_i h
        have hfull : peerDontHaveLimit ≤ n + k := by omega
        simp [hfull, Nat.le_succ_of_le hfull, ← Nat.add_assoc, Nat.lt_succ_of_le hfull]
      · rename_i h
        have hroom : n + k < peerDontHaveLimit := by omega
        simp only [Prod.mk.injEq, decide_eq_decide]
        omega

theorem streak_receiveKey (q : PeerID) (sws : SessionWantSender) (w : Want) (p : PeerID) :
    (receiveKey q sws w).streak p = if p = q then 0 else sws.streak p := by
  rw [receiveKey, streak_erase]
  split
  · rfl
  · split <;> rfl

theorem tally_countDontHave (q : PeerID) (s : Answers) (p : PeerID) :
    (s.countDontHave q).tally p = if p = q then another (s.tally p) else s.tally p := by
  rw [Answers.countDontHave]
  by_cases hpq : p = q
  · subst hpq
    have hcount : (s.tally p).1 = s.sws.peerConsecutiveDontHaves.getD p 0 := rfl
    rw [if_pos rfl, another, hcount]
    dsimp only
    split
    · simp [Answers.tally, streak]
    · simp [Answers.tally, streak, GoMap.getD_insert_ite]
  · rw [if_neg hpq]
    split
    · simp [Answers.tally, GoSet.has, hpq]
    · simp [Answers.tally, streak, GoMap.getD_insert_ite, hpq]

theorem tally_onDontHave (blk : GoSet Want) (q : PeerID) (s : Answers) (w : Want) (p : PeerID) :
    (s.onDontHave bpm blk q w).tally p = if p = q then another (s.tally p) else s.tally p := by
  rw [← tally_countDontHave, Answers.onDontHave]
  split
  · rfl
  · have hkept := streak_of_aside (@aside_answerDontHave bpm w (s.countDontHave q).sws q) p
    rw [Answers.tally, Answers.tally, hkept]

theorem tally_onHave (blk : GoSet Want) (q : PeerID) (s : Answers) (w : Want) (p : PeerID) :
    (s.onHave bpm blk q w).tally p = if p = q then (0, false) else s.tally p := by
  have hkept : (if blk.has w then s.sws else updateWantBlockPresence bpm w s.sws q).streak p =
      s.sws.streak p := by
    split
    · rfl
    · exact streak_of_aside (aside_updateWantBlockPresence ..) p
  rw [Answers.onHave, Answers.tally]
  dsimp only
  rw [streak_erase, hkept]
  split
  · rename_i h
    subst h
    simp [GoSet.has]
  · rename_i h
    simp [Answers.tally, GoSet.has, h]

/-- The items of a peer among those of all. -/
theorem countP_items (f : Update → List Want) (p : PeerID) : ∀ us : List Update,
    (items f us).countP (fun i => p = i.1) = ((us.filter fun u => u.sender = p).flatMap f).length
  | [] => rfl
  | u :: us => by
      have hone : ((f u).map fun w => (u.sender, w)).countP (fun i => p = i.1) =
          if u.sender = p then (f u).length else 0 := by
        rw [List.countP_map]
        split
        · rename_i h
          simp [Function.comp_def, h]
        · rename_i h
          simp [Function.comp_def, Ne.symm h]
      show (_ ++ items f us).countP _ = _
      rw [List.countP_append, countP_items f p us, hone, List.filter_cons]
      by_cases h : u.sender = p <;> simp [h]

/-- Clearing once is clearing any number of times. -/
theorem iterate_const {V : Type} (c x : V) (l : List Want) :
    (fun _ => c)^[l.length] x = if l = [] then x else c := by
  cases l with
  | nil => rfl
  | cons w l =>
      rw [List.length_cons, Function.iterate_succ_apply', if_neg (List.cons_ne_nil w l)]

/-- What the three loops make of the tally of a peer. -/
theorem tally_processUpdates (bpm : BlockPresenceManager) (us : List Update)
    (sws : SessionWantSender) (p : PeerID) :
    let own := us.filter fun u => u.sender = p
    ∃ s : Answers, sws.processUpdates bpm us = (s.sws.next, s.dontHaves, pruned bpm s) ∧
      s.tally p = if own.flatMap Update.haves = [] then
        another^[(own.flatMap Update.dontHaves).length]
          (if own.flatMap Update.ks = [] then sws.streak p else 0, false)
      else (0, false) := by
  intro own
  refine ⟨_, rfl, ?_⟩
  rw [foldl_iterate (Answers.tally · p) (fun _ => (0, false)) (fun i : PeerID × Want => p = i.1)
      (fun s i => by rw [tally_onHave]; simp), countP_items, iterate_const,
    foldl_iterate (Answers.tally · p) another (fun i : PeerID × Want => p = i.1)
      (fun s i => by rw [tally_onDontHave]; simp), countP_items]
  have hkeys := foldl_iterate (streak · p) (fun _ => 0) (fun i : PeerID × Want => p = i.1)
    (fun s i => (streak_receiveKey i.1 s i.2 p).trans (by simp)) (items Update.ks us) sws
  rw [countP_items, iterate_const] at hkeys
  rw [Answers.tally, hkeys]
  rfl

/-! ## The count is a row of DONT_HAVEs -/

/-- The count is within the limit, and the last things heard from the peer are as many
DONT_HAVEs. -/
structure Follows (sws : SessionWantSender) (p : PeerID) (heard : List Item) : Prop where
  le : sws.streak p ≤ peerDontHaveLimit
  suffix : List.replicate (sws.streak p) .DONT_HAVE <:+ heard

theorem Follows.of_le {sws' : SessionWantSender} {heard : List Item} (h : sws.Follows p heard)
    (hle : sws'.streak p ≤ sws.streak p) : sws'.Follows p heard := by
  refine ⟨Nat.le_trans hle h.le, .trans ?_ h.suffix⟩
  exact replicate_suffix hle

/-- The updates of a batch keep it, and the peers that they prune have gone past the limit. -/
theorem Follows.processUpdates {us : List Update} {heard : List Item} (h : sws.Follows p heard)
    (hus : (∃ u ∈ us.filter fun u => u.sender = p, u.haves ≠ []) ∨
      (us.filter fun u => u.sender = p).Pairwise fun u u' => u.dontHaves = [] ∨ u'.ks = []) :
    let now := (us.filter fun u => u.sender = p).flatMap Update.said
    (sws.processUpdates bpm us).1.Follows p (heard ++ now) ∧
      (p ∈ (sws.processUpdates bpm us).2.2 → EndsStreak heard now) := by
  intro now
  obtain ⟨s, hs, ht⟩ := tally_processUpdates bpm us sws p
  rw [hs]
  have hpruned : p ∈ pruned bpm s → (s.tally p).2 = true := by
    intro hp
    have hmem : p ∈ s.prunePeers.keys := mem_ranging.mp (List.mem_filter.mp hp).1
    exact GoSet.has_eq_true.mpr hmem
  have hstreak : s.sws.next.streak p = (s.tally p).1 := rfl
  split at ht
  · rename_i hno
    have hno : ∀ u ∈ us.filter fun u => u.sender = p, u.haves = [] :=
      List.flatMap_eq_nil_iff.mp hno
    have hpw := hus.resolve_left fun ⟨u, hu, hne⟩ => hne (hno u hu)
    have hrow := streak_suffix hno hpw h.suffix
    generalize hn : (if (us.filter fun u => u.sender = p).flatMap Update.ks = [] then
      sws.streak p else 0) = n at ht hrow
    have hle : n ≤ peerDontHaveLimit := by
      rw [← hn]
      split
      · exact h.le
      · exact Nat.zero_le _
    generalize hk : ((us.filter fun u => u.sender = p).flatMap Update.dontHaves).length = k
      at ht hrow
    rw [iterate_another hle] at ht
    rw [ht] at hpruned hstreak
    refine ⟨⟨?_, ?_⟩, fun hp => ?_⟩
    · rw [hstreak]
      exact Nat.min_le_left _ _
    · rw [hstreak]
      exact (replicate_suffix (Nat.min_le_right _ _)).trans hrow
    · have hpast : peerDontHaveLimit < n + k := of_decide_eq_true (hpruned hp)
      obtain ⟨x, hx⟩ := (replicate_suffix hpast).trans hrow
      have hnow : now.length = _ := congrArg List.length (said_of_blocksFirst hno hpw)
      rw [List.length_append, List.length_replicate, List.length_replicate, hk] at hnow
      refine ⟨x, [], by rw [List.append_nil, hx], ?_⟩
      rw [List.length_nil]
      omega
  · rw [ht] at hpruned hstreak
    refine ⟨⟨?_, ?_⟩, fun hp => absurd (hpruned hp) Bool.false_ne_true⟩
    · rw [hstreak]
      exact Nat.zero_le _
    · rw [hstreak]
      exact List.nil_suffix

theorem Follows.after {heard : List Item} {b : Batch} (h : sws.Follows p heard)
    (hb : b.BlocksFirst p) :
    (sws.turn b).Follows p (heard ++ (b.updatesFrom p).flatMap Update.said) := by
  have hupdates : (sws.collect b.bpm b.changes).updates = updatesOf b.changes :=
    (gathers_foldl_change b.changes _).updates
  have hend := byPeer_onChange b.bpm b.changes sws
  rw [hupdates] at hend
  have hbefore := h.of_le (streak_beforeUpdates_le b.bpm b.changes sws p)
  exact (hbefore.processUpdates hb).1.of_le (Nat.le_of_eq (streak_of_byPeer hend p))

theorem follows_run (sid : SessionID) (rng : Nat → Draw) (p : PeerID) (bs : List Batch)
    (h : ∀ b ∈ bs, b.BlocksFirst p) :
    (run turn (new sid rng) bs).Follows p
      ((bs.flatMap fun b => b.updatesFrom p).flatMap Update.said) := by
  induction bs using List.reverseRecOn with
  | nil => exact ⟨Nat.zero_le _, List.nil_suffix⟩
  | append_singleton bs b ih =>
      have hbs := ih fun c hc => h c (List.mem_append_left _ hc)
      have hb := h b (List.mem_append_right _ List.mem_cons_self)
      rw [run_append, List.flatMap_append, List.flatMap_append, List.flatMap_singleton]
      exact hbs.after hb

/-! ## Peers that are pruned -/

theorem mem_pruned_of_signalled {b : Batch} (h : .signalUnavailable p ∈ sws.calls b) :
    p ∈ ((sws.beforeUpdates b.bpm b.changes).processUpdates b.bpm (updatesOf b.changes)).2.2 := by
  have hsettle : .signalUnavailable p ∈ (sws.settle b.bpm b.changes).calls := by
    rw [calls] at h
    rcases onChange_cases b.bpm b.changes sws with ⟨-, sws', sent, hsend, hturn⟩ | ⟨-, hturn⟩
    · rw [hturn] at h
      refine (List.mem_append.mp h).resolve_right fun hsent => ?_
      have hform := mem_calls_sendNextWants (sws.settle b.bpm b.changes).newlyAvailable
        (sws.settle b.bpm b.changes).sws
      rw [hsend] at hform
      obtain ⟨q, blks, haves, he | he⟩ := hform _ hsent <;> cases he
    · rwa [hturn] at h
  rcases mem_calls_settle hsettle with ⟨q, he⟩ | ⟨q, hq, he⟩ | ⟨ws, he⟩ | ⟨-, he⟩
  · cases he
  · cases he
    exact hq
  · cases he
  · cases he

/-- What is tracked when peers are pruned is what the turn has when it comes to sending. -/
theorem mem_wants_settle (bpm : BlockPresenceManager) (changes : List Change)
    (sws : SessionWantSender) (w : Want) :
    w ∈ (sws.settle bpm changes).sws.wants ↔
      w ∈ ((sws.beforeUpdates bpm changes).processUpdates bpm (updatesOf changes)).1.wants := by
  have hupdates : (sws.collect bpm changes).updates = updatesOf changes :=
    (gathers_foldl_change changes _).updates
  have hcheck := @judged_checkForExhaustedWants bpm
    ((sws.beforeUpdates bpm changes).processUpdates bpm (sws.collect bpm changes).updates).2.1
    ((sws.collect bpm changes).sws.processAvailability bpm
      (sws.collect bpm changes).availability).newlyUnavailable
    ((sws.beforeUpdates bpm changes).processUpdates bpm (sws.collect bpm changes).updates).1 w
  rw [mem_wants_iff_view, mem_wants_iff_view, ← hupdates]
  exact not_congr (rel_none_iff hcheck)

theorem peerHasBlock_of_signalled {b : Batch} (h : .signalUnavailable p ∈ sws.calls b) :
    ∀ w ∈ (sws.settle b.bpm b.changes).sws.wants, b.bpm.peerHasBlock p w.cid = false := by
  intro w hw
  have hp := mem_pruned_of_signalled h
  obtain ⟨s, hs, -⟩ := tally_processUpdates b.bpm (updatesOf b.changes)
    (sws.beforeUpdates b.bpm b.changes) p
  have hkeep := (mem_wants_settle b.bpm b.changes sws w).mp hw
  rw [hs] at hp hkeep
  have hnone := (List.mem_filter.mp hp).2
  rw [Bool.not_eq_true', List.any_eq_false] at hnone
  exact Bool.eq_false_iff.mpr (hnone w hkeep)

/-- **A peer is pruned for DONT_HAVEs in a row.**  In a run whose batches have the blocks of the
peer first, it is signalled as unavailable only when one of the DONT_HAVEs it has just sent ends a
row that is longer than the limit, and when it is not known to have anything that is wanted. -/
theorem pruned_for_streak (sid : SessionID) (rng : Nat → Draw) (bs : List Batch) (b : Batch)
    (p : PeerID) (hfirst : ∀ c ∈ bs ++ [b], c.BlocksFirst p)
    (h : .signalUnavailable p ∈ (run turn (new sid rng) bs).calls b) :
    SentStreak p bs b ∧ ∀ w ∈ ((run turn (new sid rng) bs).settle b.bpm b.changes).sws.wants,
      b.bpm.peerHasBlock p w.cid = false := by
  refine ⟨?_, peerHasBlock_of_signalled h⟩
  have hfollows := follows_run sid rng p bs fun c hc => hfirst c (List.mem_append_left _ hc)
  have hbefore := hfollows.of_le (streak_beforeUpdates_le b.bpm b.changes _ p)
  have hb := hfirst b (List.mem_append_right _ List.mem_cons_self)
  exact ⟨_, _, reading_said _, reading_said _,
    (hbefore.processUpdates hb).2 (mem_pruned_of_signalled h)⟩

/-- Seventeen DONT_HAVEs behind a block prune the peer. -/
theorem pruned_for_streak_behind_block :
    let p : PeerID := ⟨[7]⟩
    let ws : List Want := (List.range 17).map fun n => ⟨⟨[n.toUInt8]⟩, []⟩
    let x : Want := ⟨⟨[17]⟩, []⟩
    let bs : List Batch := [⟨.new, [{ add := ws ++ [x], availability := ⟨p, true⟩ }]⟩]
    let b : Batch := ⟨BlockPresenceManager.new.receiveFrom p [] ws,
      [{ update := ⟨p, [x], [], []⟩ }, { update := ⟨p, [], [], ws⟩ }]⟩
    SentStreak p bs b ∧
      ∀ w ∈ ((run turn (new 1 fun _ => .plain) bs).settle b.bpm b.changes).sws.wants,
        b.bpm.peerHasBlock p w.cid = false := by
  intro p ws x bs b
  have hfirst : ∀ c ∈ bs ++ [b], c.BlocksFirst p := by decide +kernel
  have h : .signalUnavailable p ∈ (run turn (new 1 fun _ => .plain) bs).calls b := by
    decide +kernel
  exact pruned_for_streak 1 (fun _ => .plain) bs b p hfirst h

/-- Sixteen DONT_HAVEs, a block and another DONT_HAVE, all in one batch: the peer is pruned,
though it has sent no seventeen DONT_HAVEs in a row. -/
theorem pruned_across_block :
    let p : PeerID := ⟨[7]⟩
    let ws : List Want := (List.range 16).map fun n => ⟨⟨[n.toUInt8]⟩, []⟩
    let x : Want := ⟨⟨[16]⟩, []⟩
    let w : Want := ⟨⟨[17]⟩, []⟩
    let bs : List Batch := [⟨.new, [{ add := ws ++ [x, w], availability := ⟨p, true⟩ }]⟩]
    let b : Batch := ⟨BlockPresenceManager.new.receiveFrom p [] (ws ++ [w]),
      [{ update := ⟨p, [], [], ws⟩ }, { update := ⟨p, [x], [], []⟩ },
        { update := ⟨p, [], [], [w]⟩ }]⟩
    .signalUnavailable p ∈ (run turn (new 1 fun _ => .plain) bs).calls b ∧
      ¬ SentStreak p bs b := by
  intro p ws x w bs b
  refine ⟨by decide +kernel, ?_⟩
  rintro ⟨l₀, l₁, h₀, h₁, hrow⟩
  have hl₀ := h₀.eq_said (by decide +kernel)
  have hl₁ := h₁.eq_said (by decide +kernel)
  subst hl₀ hl₁
  exact not_endsStreak (a := List.replicate 16 .DONT_HAVE) (c := [.DONT_HAVE]) (by decide +kernel)
    (by decide) (by decide) hrow

end SessionWantSender

end BitswapAuth
