/-
# `BitswapAuth.Session.Losses` — requested wants that are forgotten

Every want a session was asked for should stay on its books until its block is
received or the request is cancelled: live, or in the queue, where repeated `Pop`
brings it out.  The live wants are kept by want and the queue by CID, so the two
disagree when a block is asked for under two auth strings.  `Pop` returns, for
each CID of the queue's set, the first element of the list that has it
(`awaits_iff`), and that element may be another want, or an old copy that was
left behind when its CID was taken out of the set.

`Orderly` says of each operation that no want in the queue loses its place to
another want of its block; `always_noneLost_iff` says that this is exactly when
nothing is lost.
-/
import BitswapAuth.Session.Wants
import BitswapAuth.Lib.Run

namespace BitswapAuth

open Lib CidQueue

/-! ## What repeated `Pop` returns -/

/-- The want is the first of its CID in the list. -/
def Want.First (w : Want) (l : List Want) : Prop := l.find? (fun k => k.cid = w.cid) = some w

instance (w : Want) (l : List Want) : Decidable (w.First l) := inferInstanceAs (Decidable (_ = _))

namespace CidQueue

/-- What `n` calls of `Pop` return, as long as the queue is not empty. -/
def pops : Nat → CidQueue → List Want
  | 0, _ => []
  | n + 1, cq => if cq.len = 0 then [] else cq.pop.1 :: pops n cq.pop.2

/-- Repeated `Pop` eventually returns the want. -/
def Awaits (cq : CidQueue) (w : Want) : Prop := ∃ n, w ∈ pops n cq

variable {cq cq' : CidQueue} {w out : Want}

theorem len_ne_zero {c : Cid} (h : cq.has c = true) : cq.len ≠ 0 :=
  fun h0 => GoMap.len_eq_zero.mp h0 c (GoSet.has_eq_true.mp h)

/-- The first elements of their CIDs, before and after a `Pop`. -/
theorem Popped.first_iff (h : Popped cq out cq') (hw : cq.has w.cid = true) :
    w.First cq.elems ↔ w = out ∨ (w.cid ≠ out.cid ∧ w.First cq'.elems) := by
  obtain ⟨stale, hl, hstale⟩ := h.split
  have hnone : stale.find? (fun k => k.cid = w.cid) = none := by
    rw [List.find?_eq_none]
    intro k hk heq
    rw [decide_eq_true_iff] at heq
    exact absurd (heq ▸ hstale k hk) (by simp [hw])
  rw [Want.First, hl, List.find?_append, hnone, Option.none_or, List.find?_cons]
  by_cases hc : out.cid = w.cid
  · simp [hc, eq_comm]
  · have hne : w ≠ out := fun he => hc (he ▸ rfl)
    simp [hc, Ne.symm hc, hne, Want.First]

theorem awaits_of_first : ∀ (n : Nat) {cq : CidQueue}, cq.elems.length ≤ n →
    cq.has w.cid = true → w.First cq.elems → w ∈ pops n cq
  | 0, cq, hn, _, hf => by
      rw [List.length_eq_zero_iff.mp (Nat.le_zero.mp hn)] at hf
      exact absurd hf (by simp [Want.First])
  | n + 1, cq, hn, hw, hf => by
      have hp := popped_pop (len_ne_zero hw)
      rw [pops, if_neg (len_ne_zero hw), List.mem_cons]
      rcases (hp.first_iff hw).mp hf with he | ⟨hne, hf⟩
      · exact .inl he
      · refine .inr (awaits_of_first n ?_ ((hp.left w.cid).mpr ⟨hne, hw⟩) hf)
        obtain ⟨stale, hl, -⟩ := hp.split
        rw [hl, List.length_append, List.length_cons] at hn
        omega

/-- `Pop` returns, for each CID of the set, the first element that has it. -/
theorem awaits_iff : cq.Awaits w ↔ cq.has w.cid = true ∧ w.First cq.elems := by
  constructor
  · rintro ⟨n, hn⟩
    induction n generalizing cq with
    | zero => exact absurd hn (by simp [pops])
    | succ n ih =>
        rw [pops] at hn
        split at hn
        · exact absurd hn (by simp)
        · rename_i hlen
          have hp := popped_pop hlen
          rcases List.mem_cons.mp hn with he | hn
          · have hw : cq.has w.cid = true := he ▸ hp.has
            exact ⟨hw, (hp.first_iff hw).mpr (.inl he)⟩
          · obtain ⟨hw, hf⟩ := ih hn
            obtain ⟨hne, hw⟩ := (hp.left w.cid).mp hw
            exact ⟨hw, (hp.first_iff hw).mpr (.inr ⟨hne, hf⟩)⟩
  · rintro ⟨hw, hf⟩
    exact ⟨_, awaits_of_first cq.elems.length le_rfl hw hf⟩

instance (cq : CidQueue) (w : Want) : Decidable (cq.Awaits w) := decidable_of_iff _ awaits_iff.symm

theorem Popped.awaits (h : Popped cq out cq') (hw : cq.Awaits w) : w = out ∨ cq'.Awaits w := by
  obtain ⟨hw, hf⟩ := awaits_iff.mp hw
  refine ((h.first_iff hw).mp hf).imp_right fun ⟨hne, hf⟩ => ?_
  exact awaits_iff.mpr ⟨(h.left w.cid).mpr ⟨hne, hw⟩, hf⟩

/-- What is pushed comes after everything that is there, and only if its CID is not. -/
theorem find_foldl_push (c : Cid) : ∀ (ws : List Want) (cq : CidQueue),
    (ws.foldl push cq).elems.find? (fun k => k.cid = c) =
      (cq.elems ++ ws).find? (fun k => k.cid = c)
  | [], cq => by simp
  | a :: ws, cq => by
      have hpush : (cq.push a).elems.find? (fun k => k.cid = c) =
          (cq.elems ++ [a]).find? (fun k => k.cid = c) := by
        rw [push]
        split
        · rename_i ha
          obtain ⟨k, hk, hka⟩ := cq.held a.cid (GoSet.has_eq_true.mp ha)
          by_cases hac : a.cid = c
          · have hsome : (cq.elems.find? (fun k => k.cid = c)).isSome = true := by
              rw [List.find?_isSome]
              exact ⟨k, hk, by simp [hka, hac]⟩
            rw [List.find?_append, Option.or_of_isSome hsome]
          · simp [List.find?_append, hac]
        · rfl
      rw [List.foldl_cons, find_foldl_push c ws, List.find?_append, hpush, ← List.find?_append]
      simp

theorem awaits_remove {c : Cid} (hc : w.cid ≠ c) : (cq.remove c).Awaits w ↔ cq.Awaits w := by
  rw [awaits_iff, awaits_iff, has_remove]
  exact and_congr_left fun _ => and_iff_right hc

end CidQueue

namespace SessionWants

/-! ## What is still on the books -/

/-- The want is live, or waits in the queue. -/
def Holds (sw : SessionWants) (w : Want) : Prop := w ∈ sw.liveWants ∨ sw.toFetch.Awaits w

instance (sw : SessionWants) (w : Want) : Decidable (sw.Holds w) :=
  inferInstanceAs (Decidable (_ ∨ _))

variable {sw : SessionWants} {w : Want} {now : Time}

theorem holds_blocksRequested (h : sw.Holds w) (ws : List Want) :
    (sw.blocksRequested ws).Holds w := by
  refine h.imp_right fun ha => ?_
  obtain ⟨hw, hf⟩ := awaits_iff.mp ha
  refine awaits_iff.mpr ⟨(has_foldl_push ws sw.toFetch).mpr (.inl hw), ?_⟩
  have hfind := find_foldl_push w.cid ws sw.toFetch
  rw [List.find?_append, show sw.toFetch.elems.find? _ = some w from hf, Option.some_or] at hfind
  exact hfind

/-- A want that is requested is held if it is live, or the first of its CID among
all that is in the queue's list and all that is requested. -/
theorem holds_requested {ws : List Want} (hw : w ∈ ws) : (sw.blocksRequested ws).Holds w ↔
    w ∈ sw.liveWants ∨ w.First (sw.toFetch.elems ++ ws) := by
  refine or_congr_right (awaits_iff.trans ?_)
  have hhas : (ws.foldl CidQueue.push sw.toFetch).has w.cid = true :=
    (has_foldl_push ws sw.toFetch).mpr (.inr ⟨w, hw, rfl⟩)
  show _ ∧ List.find? _ (ws.foldl CidQueue.push sw.toFetch).elems = some w ↔ _
  rw [find_foldl_push]
  exact and_iff_right hhas

/-- `GetNextWants` takes from the queue what it makes live. -/
theorem holds_nextWants (now : Time) : ∀ (n : Nat) {sw : SessionWants}, sw.Holds w →
    (sw.nextWants now n).1.Holds w
  | 0, _, h => h
  | n + 1, sw, h => by
      rw [nextWants]
      split
      · exact h
      · rename_i hlen
        refine holds_nextWants now n ?_
        rcases h with h | h
        · exact .inl ((AList.mem_insert _).mpr (.inr h))
        · rcases (popped_pop hlen).awaits h with he | h
          · exact .inl ((AList.mem_insert _).mpr (.inl he))
          · exact .inr h

/-- The wants whose sending would move the want out of the queue: those of its CID
that are not live. -/
def rival (sw : SessionWants) (w k : Want) : Bool := k.cid = w.cid ∧ k ∉ sw.liveWants

/-- A live want stays live when wants are sent. -/
theorem live_wantsSent : ∀ (ks : List Want) {sw : SessionWants}, w ∈ sw.liveWants →
    w ∈ (sw.wantsSent now ks).liveWants
  | [], _, h => h
  | k :: ks, sw, h => by
      refine live_wantsSent ks ?_
      rw [wantSent]
      split
      · exact (AList.mem_insert _).mpr (.inr h)
      · exact h

/-- A want that is neither live nor in the queue is not brought back by sending. -/
theorem not_holds_wantsSent : ∀ (ks : List Want) {sw : SessionWants}, w ∉ sw.liveWants →
    sw.toFetch.has w.cid = false → ¬ (sw.wantsSent now ks).Holds w
  | [], sw, hl, hq => by
      rintro (h | h)
      · exact hl h
      · exact absurd ((awaits_iff.mp h).1.symm.trans hq) (by simp)
  | k :: ks, sw, hl, hq => by
      refine not_holds_wantsSent ks ?_ ?_
      · rw [wantSent]
        split
        · rename_i hk
          refine fun h => ((AList.mem_insert _).mp h).elim (fun he => ?_) hl
          rw [← he, hq] at hk
          exact absurd hk.2 (by simp)
        · exact hl
      · rw [wantSent]
        split
        · rw [Bool.eq_false_iff]
          exact fun h => absurd (has_remove.mp h).2 (by simp [hq])
        · exact hq

/-- A want that waits in the queue is held when wants are sent, unless the first of
them that takes its place is another. -/
theorem holds_wantsSent : ∀ (ks : List Want) {sw : SessionWants}, w ∉ sw.liveWants →
    sw.toFetch.Awaits w →
    ((sw.wantsSent now ks).Holds w ↔ ∀ k ∈ ks.find? (sw.rival w), k = w)
  | [], _, _, ha => ⟨fun _ k hk => by simp at hk, fun _ => .inr ha⟩
  | k :: ks, sw, hl, ha => by
      have hw := (awaits_iff.mp ha).1
      show ((sw.wantSent now k).wantsSent now ks).Holds w ↔ _
      by_cases hk : sw.rival w k = true
      · have hk' : k.cid = w.cid ∧ k ∉ sw.liveWants := by simpa [rival] using hk
        rw [List.find?_cons_of_pos hk, wantSent, if_pos ⟨hk'.2, hk'.1 ▸ hw⟩]
        by_cases he : k = w
        · subst he
          exact ⟨fun _ k' h => by simpa [eq_comm] using h,
            fun _ => .inl (live_wantsSent ks ((AList.mem_insert _).mpr (.inl rfl)))⟩
        · refine ⟨fun h => absurd h (not_holds_wantsSent ks ?_ ?_), fun h => absurd (h k rfl) he⟩
          · exact fun h => ((AList.mem_insert _).mp h).elim (fun h => he h.symm) hl
          · rw [Bool.eq_false_iff]
            exact fun h => (has_remove.mp h).1 hk'.1.symm
      · rw [List.find?_cons_of_neg hk]
        rw [wantSent]
        split
        · -- a want of another block is sent
          rename_i hs
          have hne : k.cid ≠ w.cid := fun he => hk (by simp [rival, he, hs.1])
          have hsame : (goLive now { sw with toFetch := sw.toFetch.remove k.cid } k).rival w =
              sw.rival w := by
            funext k'
            refine decide_eq_decide.mpr (and_congr_right fun hk' => not_congr ?_)
            refine (AList.mem_insert _).trans (or_iff_right fun he => hne ?_)
            rw [← he, hk']
          rw [← hsame]
          refine holds_wantsSent ks ?_ ((awaits_remove (Ne.symm hne)).mpr ha)
          exact fun h => ((AList.mem_insert _).mp h).elim (fun h => hne (h ▸ rfl)) hl
        · exact holds_wantsSent ks hl ha

/-- The wants in the queue and the live ones after a block is received. -/
theorem holds_block (now : Time) (s : Receipt) {k : Want} (hk : k ≠ w) :
    (w ∈ (s.block now k).sw.liveWants ↔ w ∈ s.sw.liveWants) ∧
    (k.cid ≠ w.cid → ((s.block now k).sw.toFetch.Awaits w ↔ s.sw.toFetch.Awaits w)) ∧
    (k.cid = w.cid → (s.block now k).sw.toFetch.has w.cid = false) := by
  rw [Receipt.block]
  split
  · refine ⟨AList.mem_erase.trans (and_iff_right (Ne.symm hk)), fun hne => ?_, fun he => ?_⟩
    · exact awaits_remove (Ne.symm hne)
    · rw [Bool.eq_false_iff]
      exact fun h => (has_remove.mp h).1 he.symm
  · rename_i hno
    refine ⟨Iff.rfl, fun _ => Iff.rfl, fun he => Bool.eq_false_iff.mpr fun h => hno ?_⟩
    exact isWanted_iff.mpr (.inr (he ▸ h))

theorem live_block (now : Time) (s : Receipt) (k : Want) :
    w ∈ (s.block now k).sw.liveWants ↔ w ∈ s.sw.liveWants ∧ w ≠ k := by
  by_cases hk : k = w
  · subst hk
    refine iff_of_false ?_ fun h => h.2 rfl
    rw [Receipt.block]
    split
    · exact fun h => (AList.mem_erase.mp h).1 rfl
    · rename_i hno
      exact fun h => hno (isWanted_iff.mpr (.inl h))
  · exact (holds_block now s hk).1.trans (and_iff_left (Ne.symm hk)).symm

/-- A live want stays live unless it is received. -/
theorem live_foldl_block (now : Time) : ∀ (ks : List Want) (s : Receipt),
    w ∈ (ks.foldl (Receipt.block now) s).sw.liveWants ↔ w ∈ s.sw.liveWants ∧ w ∉ ks
  | [], _ => by simp
  | k :: ks, s => by
      rw [List.foldl_cons, live_foldl_block now ks, live_block, List.mem_cons, not_or, and_assoc]

/-- A want that is not in the queue is not put there by a receipt. -/
theorem not_has_foldl_block (now : Time) {c : Cid} : ∀ (ks : List Want) (s : Receipt),
    s.sw.toFetch.has c = false → (ks.foldl (Receipt.block now) s).sw.toFetch.has c = false
  | [], _, h => h
  | k :: ks, s, h => by
      refine not_has_foldl_block now ks _ ?_
      rw [Receipt.block]
      split
      · rw [Bool.eq_false_iff]
        exact fun h' => absurd ((has_remove.mp h').2.symm.trans h) (by simp)
      · exact h

/-- A want that waits in the queue goes on waiting if no want of its block is
received. -/
theorem awaits_foldl_block : ∀ (ks : List Want) (s : Receipt), w ∉ ks → s.sw.toFetch.Awaits w →
    ((ks.foldl (Receipt.block now) s).sw.toFetch.Awaits w ↔ ∀ k ∈ ks, k.cid ≠ w.cid)
  | [], _, _, ha => ⟨fun _ k hk => by simp at hk, fun _ => ha⟩
  | k :: ks, s, hks, ha => by
      obtain ⟨hk, hks⟩ := not_or.mp fun h => hks (List.mem_cons.mpr h)
      obtain ⟨-, hne, heq⟩ := holds_block now s (Ne.symm hk)
      rw [List.forall_mem_cons, List.foldl_cons]
      by_cases hc : k.cid = w.cid
      · refine ⟨fun h => ?_, fun h => absurd hc h.1⟩
        have := not_has_foldl_block now ks _ (heq hc)
        exact absurd ((awaits_iff.mp h).1.symm.trans this) (by simp)
      · rw [awaits_foldl_block ks _ hks ((hne hc).mpr ha)]
        exact (and_iff_right hc).symm

theorem holds_cleaned : sw.cleaned.Holds w ↔ sw.Holds w := by
  rw [cleaned]
  split <;> exact Iff.rfl

theorem holds_blocksReceived {ks : List Want} (hks : w ∉ ks) (h : sw.Holds w) :
    (sw.blocksReceived now ks).sw.Holds w ↔ w ∈ sw.liveWants ∨ ∀ k ∈ ks, k.cid ≠ w.cid := by
  rw [blocksReceived]
  split
  · rename_i hnil
    rw [List.isEmpty_iff.mp hnil]
    exact ⟨fun _ => .inr (by simp), fun _ => h⟩
  · show (SessionWants.cleaned _).Holds w ↔ _
    rw [holds_cleaned]
    have hlive : w ∈ (ks.foldl (Receipt.block now) ⟨sw, [], 0⟩).sw.liveWants ↔ w ∈ sw.liveWants :=
      (live_foldl_block now ks _).trans (and_iff_left hks)
    by_cases hl : w ∈ sw.liveWants
    · exact ⟨fun _ => .inl hl, fun _ => .inl (hlive.mpr hl)⟩
    · have ha : sw.toFetch.Awaits w := h.resolve_left hl
      exact or_congr hlive (awaits_foldl_block ks ⟨sw, [], 0⟩ hks ha)

/-- Only times of live wants change. -/
structure Retimed (sw sw' : SessionWants) : Prop where
  live : ∀ w, w ∈ sw'.liveWants ↔ w ∈ sw.liveWants
  toFetch : sw'.toFetch = sw.toFetch
  order : sw'.liveWantsOrder = sw.liveWantsOrder
  limit : sw'.broadcastLimit = sw.broadcastLimit

theorem Retimed.refl (sw : SessionWants) : Retimed sw sw := ⟨fun _ => Iff.rfl, rfl, rfl, rfl⟩

theorem Retimed.trans {sw sw' sw'' : SessionWants} (h : Retimed sw sw') (h' : Retimed sw' sw'') :
    Retimed sw sw'' :=
  ⟨fun w => (h'.live w).trans (h.live w), h'.toFetch.trans h.toFetch, h'.order.trans h.order,
    h'.limit.trans h.limit⟩

theorem retimed_insert {c : Want} (hc : c ∈ sw.liveWants) (now : Time) :
    Retimed sw { sw with liveWants := sw.liveWants.insert c now } := by
  refine ⟨fun w => ?_, rfl, rfl, rfl⟩
  show w ∈ sw.liveWants.insert c now ↔ _
  rw [AList.mem_insert]
  exact or_iff_right_of_imp fun he => he ▸ hc

theorem retimed_prepareLoop (now : Time) : ∀ (order : List Want) (sw : SessionWants)
    (live : List Want), Retimed sw (prepareLoop now sw live order).1
  | [], sw, _ => .refl sw
  | c :: order, sw, live => by
      rw [prepareLoop]
      split
      · rename_i hc
        dsimp only
        split
        · exact retimed_insert hc now
        · exact (retimed_insert hc now).trans (retimed_prepareLoop now order _ _)
      · exact retimed_prepareLoop now order sw live

theorem holds_prepareBroadcast : (sw.prepareBroadcast now).1.Holds w ↔ sw.Holds w := by
  have h := retimed_prepareLoop now sw.liveWantsOrder sw []
  exact or_congr (h.live w) (by rw [prepareBroadcast, h.toFetch])

theorem awaits_foldl_remove : ∀ (keys : List Cid) {cq : CidQueue}, w.cid ∉ keys → cq.Awaits w →
    (keys.foldl CidQueue.remove cq).Awaits w
  | [], _, _, ha => ha
  | k :: keys, _, hw, ha => by
      obtain ⟨hk, hkeys⟩ := not_or.mp fun h => hw (List.mem_cons.mpr h)
      exact awaits_foldl_remove keys hkeys ((awaits_remove hk).mpr ha)

theorem holds_cancelPending {keys : List Cid} (hw : w.cid ∉ keys) (h : sw.Holds w) :
    (sw.cancelPending keys).Holds w :=
  h.imp_right (awaits_foldl_remove keys hw)

end SessionWants

/-! ## All along a run -/

/-- The operations of a `sessionWants`. -/
inductive WantsCall where
  | blocksRequested (newWants : List Want)
  | getNextWants (now : Time)
  | wantsSent (now : Time) (ks : List Want)
  | blocksReceived (now : Time) (ks : List Want)
  | prepareBroadcast (now : Time)
  | cancelPending (keys : List Cid)

/-- A `sessionWants`, with the wants that were requested and since then neither
received nor cancelled. -/
structure OwedWants where
  sw : SessionWants
  owed : List Want

namespace OwedWants

/-- A new `sessionWants`. -/
def start (broadcastLimit : Nat) : OwedWants := ⟨.new broadcastLimit, []⟩

/-- One operation. -/
def step (s : OwedWants) : WantsCall → OwedWants
  | .blocksRequested ws => ⟨s.sw.blocksRequested ws, s.owed ++ ws⟩
  | .getNextWants now => ⟨(s.sw.getNextWants now).1, s.owed⟩
  | .wantsSent now ks => ⟨s.sw.wantsSent now ks, s.owed⟩
  | .blocksReceived now ks => ⟨(s.sw.blocksReceived now ks).sw, s.owed.filter (· ∉ ks)⟩
  | .prepareBroadcast now => ⟨(s.sw.prepareBroadcast now).1, s.owed⟩
  | .cancelPending keys => ⟨s.sw.cancelPending keys, s.owed.filter (·.cid ∉ keys)⟩

/-- Every want that is owed is live, or comes out of the queue. -/
def NoneLost (s : OwedWants) : Prop := ∀ w ∈ s.owed, s.sw.Holds w

instance (s : OwedWants) : Decidable s.NoneLost := inferInstanceAs (Decidable (∀ _ ∈ _, _))

/-- No want that is owed loses its place in the queue to another of its block. -/
def Orderly (s : OwedWants) : WantsCall → Prop
  -- it is live, or the first of its CID in the list and the request
  | .blocksRequested ws => ∀ w ∈ ws, w ∈ s.sw.liveWants ∨ w.First (s.sw.toFetch.elems ++ ws)
  -- of the wants sent for its block that are not live it is the first
  | .wantsSent _ ks => ∀ w ∈ s.owed, w ∉ s.sw.liveWants → ∀ k ∈ ks.find? (s.sw.rival w), k = w
  -- no other want of its block is received while it waits
  | .blocksReceived _ ks =>
      ∀ w ∈ s.owed, w ∉ s.sw.liveWants → w ∉ ks → ∀ k ∈ ks, k.cid ≠ w.cid
  | .getNextWants _ | .prepareBroadcast _ | .cancelPending _ => True

variable {s : OwedWants}

theorem noneLost_step (h : s.NoneLost) (c : WantsCall) :
    (s.step c).NoneLost ↔ s.Orderly c := by
  cases c with
  | blocksRequested ws =>
      constructor
      · exact fun h' w hw => (SessionWants.holds_requested hw).mp
          (h' w (List.mem_append_right _ hw))
      · intro hok w hw
        rcases List.mem_append.mp hw with hw | hw
        · exact SessionWants.holds_blocksRequested (h w hw) ws
        · exact (SessionWants.holds_requested hw).mpr (hok w hw)
  | getNextWants now =>
      exact iff_of_true (fun w hw => SessionWants.holds_nextWants now _ (h w hw)) trivial
  | wantsSent now ks =>
      refine forall₂_congr fun w hw => ?_
      by_cases hl : w ∈ s.sw.liveWants
      · exact iff_of_true (.inl (SessionWants.live_wantsSent ks hl)) fun h => absurd hl h
      · rw [show (s.step (.wantsSent now ks)).sw = s.sw.wantsSent now ks from rfl,
          SessionWants.holds_wantsSent ks hl ((h w hw).resolve_left hl)]
        exact ⟨fun h _ => h, fun h => h hl⟩
  | blocksReceived now ks =>
      have hiff : ∀ w ∈ s.owed, w ∉ ks → ((s.sw.blocksReceived now ks).sw.Holds w ↔
          (w ∉ s.sw.liveWants → ∀ k ∈ ks, k.cid ≠ w.cid)) := fun w hw hks =>
        (SessionWants.holds_blocksReceived hks (h w hw)).trans or_iff_not_imp_left
      constructor
      · intro h' w hw hl hks
        have hmem : w ∈ s.owed.filter (· ∉ ks) := List.mem_filter.mpr ⟨hw, by simpa using hks⟩
        exact (hiff w hw hks).mp (h' w hmem) hl
      · intro hok w hw
        obtain ⟨hw, hks⟩ := List.mem_filter.mp hw
        have hks : w ∉ ks := by simpa using hks
        exact (hiff w hw hks).mpr fun hl => hok w hw hl hks
  | prepareBroadcast now =>
      exact iff_of_true (fun w hw => SessionWants.holds_prepareBroadcast.mpr (h w hw)) trivial
  | cancelPending keys =>
      refine iff_of_true (fun w hw => ?_) trivial
      obtain ⟨hw, hk⟩ := List.mem_filter.mp hw
      exact SessionWants.holds_cancelPending (by simpa using hk) (h w hw)

/-- **No requested want is lost**, in every state of a run, just when every
operation of it is orderly. -/
theorem always_noneLost_iff (broadcastLimit : Nat) (calls : List WantsCall) :
    Always step NoneLost (start broadcastLimit) calls ↔
      Meets step Orderly (start broadcastLimit) calls := by
  refine always_iff_meets (I := NoneLost) (fun _ h => h)
    (fun s c h hok => (noneLost_step h c).mpr hok)
    (fun s c h hno h' => hno ((noneLost_step h c).mp h')) calls ?_
  intro w hw
  simp [start] at hw

/-- Of two wants of one block that are requested together, the second is lost. -/
theorem second_auth_lost :
    let w : Want := ⟨⟨[1]⟩, [65]⟩
    let w' : Want := ⟨⟨[1]⟩, [66]⟩
    let s := run step (start broadcastLiveWantsLimit) [.blocksRequested [w, w']]
    s.owed = [w, w'] ∧ s.sw.Holds w ∧ w' ∉ s.sw.liveWants ∧ ¬ s.sw.toFetch.Awaits w' ∧
      ¬ s.NoneLost := by
  decide

end OwedWants

end BitswapAuth
