/-
# `BitswapAuth.Session.LiveWants` — the order of the live wants

The live wants of a session are the keys of a map, and beside it stands a list of them in the
order they were sent, from which a broadcast takes the first ones and a periodic search a random
one.  The list is written to when a want goes live and not when its block is received; the wants
that are no longer live are only cleared out when there are many of them.

What the list should say is `lives`: the live wants, those first that have been live the longest
without a break.  It does say that, once the others are left out, as long as a want that goes live
is not in the list already (`broadcasts_longest_live`).  A want that is asked for
again while it is live is listed twice, and one that is asked for again after it was received
counts from its first time (`broadcast_twice`).

A random want of the list is a live one as long as every receipt clears the list
(`searches_live_iff`), and most do not (`search_received`).
-/
import BitswapAuth.Session.Session
import BitswapAuth.Session.Losses

namespace BitswapAuth

open Lib

namespace SessionWants

/-! ## What the calls do to the map and the list -/

/-- The wants of `WantsSent` that go live. -/
def wentLive (now : Time) : SessionWants → List Want → List Want
  | _, [] => []
  | sw, c :: ks =>
      let rest := wentLive now (sw.wantSent now c) ks
      if c ∉ sw.liveWants ∧ sw.toFetch.has c.cid = true then c :: rest else rest

/-- Wants go live: they are keys of the map and stand at the end of the list. -/
structure GoesLive (sw : SessionWants) (ws : List Want) (sw' : SessionWants) : Prop where
  order : sw'.liveWantsOrder = sw.liveWantsOrder ++ ws
  live : ∀ w, w ∈ sw'.liveWants ↔ w ∈ sw.liveWants ∨ w ∈ ws
  limit : sw'.broadcastLimit = sw.broadcastLimit

theorem GoesLive.of_eq {sw sw' : SessionWants} (ho : sw'.liveWantsOrder = sw.liveWantsOrder)
    (hl : ∀ w, w ∈ sw'.liveWants ↔ w ∈ sw.liveWants)
    (hb : sw'.broadcastLimit = sw.broadcastLimit) : GoesLive sw [] sw' :=
  ⟨by rw [ho, List.append_nil], fun w => (hl w).trans (by simp), hb⟩

theorem GoesLive.trans {sw sw' sw'' : SessionWants} {ws ws' : List Want}
    (h : GoesLive sw ws sw') (h' : GoesLive sw' ws' sw'') : GoesLive sw (ws ++ ws') sw'' := by
  refine ⟨?_, fun w => ?_, h'.limit.trans h.limit⟩
  · rw [h'.order, h.order, List.append_assoc]
  · rw [h'.live, h.live, List.mem_append, or_assoc]

theorem goesLive_goLive (now : Time) (sw : SessionWants) (cq : CidQueue) (c : Want) :
    GoesLive sw [c] (goLive now { sw with toFetch := cq } c) := by
  refine ⟨rfl, fun w => ?_, rfl⟩
  show w ∈ sw.liveWants.insert c now ↔ _
  rw [AList.mem_insert, List.mem_singleton, or_comm]

theorem goesLive_nextWants (now : Time) : ∀ (n : Nat) (sw : SessionWants),
    GoesLive sw (sw.nextWants now n).2 (sw.nextWants now n).1
  | 0, _ => .of_eq rfl (fun _ => Iff.rfl) rfl
  | n + 1, sw => by
      rw [nextWants]
      split
      · exact .of_eq rfl (fun _ => Iff.rfl) rfl
      · exact (goesLive_goLive now sw _ _).trans (goesLive_nextWants now n _)

/-- What one call of `GetNextWants` returns are wants of different blocks, since a CID that is
popped leaves the queue. -/
theorem nodup_nextWants (now : Time) : ∀ (n : Nat) (sw : SessionWants),
    ((sw.nextWants now n).2.map Want.cid).Nodup ∧
      ∀ w ∈ (sw.nextWants now n).2, sw.toFetch.has w.cid = true
  | 0, _ => ⟨List.nodup_nil, by simp [nextWants]⟩
  | n + 1, sw => by
      rw [nextWants]
      split
      · exact ⟨List.nodup_nil, by simp⟩
      · rename_i hlen
        have hpop := CidQueue.popped_pop hlen
        obtain ⟨ihnd, ihhas⟩ := nodup_nextWants now n
          (goLive now { sw with toFetch := sw.toFetch.pop.2 } sw.toFetch.pop.1)
        refine ⟨List.nodup_cons.mpr ⟨fun hin => ?_, ihnd⟩, fun w hw => ?_⟩
        · obtain ⟨w, hw, hcid⟩ := List.mem_map.mp hin
          exact ((hpop.left w.cid).mp (ihhas w hw)).1 hcid
        · rcases List.mem_cons.mp hw with rfl | hw
          · exact hpop.has
          · exact ((hpop.left w.cid).mp (ihhas w hw)).2

theorem goesLive_wantsSent (now : Time) : ∀ (ks : List Want) (sw : SessionWants),
    GoesLive sw (sw.wentLive now ks) (sw.wantsSent now ks)
  | [], _ => .of_eq rfl (fun _ => Iff.rfl) rfl
  | c :: ks, sw => by
      have ih := goesLive_wantsSent now ks (sw.wantSent now c)
      show GoesLive sw _ ((sw.wantSent now c).wantsSent now ks)
      rw [wentLive]
      split
      · rename_i hc
        rw [show sw.wantSent now c = _ from if_pos hc] at ih ⊢
        exact (goesLive_goLive now sw _ c).trans ih
      · rename_i hc
        rw [show sw.wantSent now c = sw from if_neg hc] at ih ⊢
        exact ih

/-- What goes live in a call of `WantsSent` was not live, and is listed once. -/
theorem nodup_wentLive (now : Time) : ∀ (ks : List Want) (sw : SessionWants),
    (sw.wentLive now ks).Nodup ∧ ∀ w ∈ sw.wentLive now ks, w ∉ sw.liveWants
  | [], _ => ⟨List.nodup_nil, by simp [wentLive]⟩
  | c :: ks, sw => by
      obtain ⟨ihnd, ihlive⟩ := nodup_wentLive now ks (sw.wantSent now c)
      rw [wentLive]
      split
      · rename_i hc
        have hlive := (goesLive_goLive now sw (sw.toFetch.remove c.cid) c).live
        rw [show sw.wantSent now c = _ from if_pos hc] at ihnd ihlive ⊢
        refine ⟨List.nodup_cons.mpr ⟨fun hin => ?_, ihnd⟩, fun w hw => ?_⟩
        · exact ihlive c hin ((hlive c).mpr (.inr List.mem_cons_self))
        · rcases List.mem_cons.mp hw with rfl | hw
          · exact hc.1
          · exact fun hw' => ihlive w hw ((hlive w).mpr (.inl hw'))
      · rename_i hc
        rw [show sw.wantSent now c = sw from if_neg hc] at ihnd ihlive ⊢
        exact ⟨ihnd, ihlive⟩

/-- Blocks are received: their wants are not live any more, and are cleared out of the list if
there is much to clear. -/
structure Receives (sw : SessionWants) (ks : List Want) (sw' : SessionWants) : Prop where
  live : ∀ w, w ∈ sw'.liveWants ↔ w ∈ sw.liveWants ∧ w ∉ ks
  order : sw'.liveWantsOrder =
    if ks ≠ [] ∧ liveWantsOrderGCLimit < sw.liveWantsOrder.length - sw'.liveWants.len then
      sw.liveWantsOrder.filter fun c => decide (c ∈ sw'.liveWants)
    else sw.liveWantsOrder
  limit : sw'.broadcastLimit = sw.broadcastLimit

theorem receives_blocksReceived (now : Time) (sw : SessionWants) (ks : List Want) :
    Receives sw ks (sw.blocksReceived now ks).sw := by
  have hone : ∀ (s : Receipt) c, (s.block now c).sw.liveWantsOrder = s.sw.liveWantsOrder ∧
      (s.block now c).sw.broadcastLimit = s.sw.broadcastLimit := by
    intro s c
    rw [Receipt.block]
    split <;> exact ⟨rfl, rfl⟩
  have hlive := fun w => live_foldl_block (w := w) now ks ⟨sw, [], 0⟩
  have horder := foldl_keeps (fun s : Receipt => s.sw.liveWantsOrder) (fun s c => (hone s c).1) ks
    ⟨sw, [], 0⟩
  have hlimit := foldl_keeps (fun s : Receipt => s.sw.broadcastLimit) (fun s c => (hone s c).2) ks
    ⟨sw, [], 0⟩
  rw [blocksReceived]
  split
  · rename_i hks
    obtain rfl : ks = [] := List.isEmpty_iff.mp hks
    exact ⟨by simp, (if_neg fun h => h.1 rfl).symm, rfl⟩
  · rename_i hks
    have hne : ks ≠ [] := fun h => hks (List.isEmpty_iff.mpr h)
    dsimp only
    rw [cleaned, horder]
    split
    · rename_i hmany
      exact ⟨hlive, (if_pos ⟨hne, hmany⟩).symm, hlimit⟩
    · rename_i hfew
      exact ⟨hlive, horder.trans (if_neg fun h => hfew h.2).symm, hlimit⟩

/-- `PrepareBroadcast` returns the live wants of the list, as far as the limit goes. -/
theorem prepareLoop_live (now : Time) : ∀ (order : List Want) (sw : SessionWants)
    (live : List Want), live.length < sw.broadcastLimit →
      (prepareLoop now sw live order).2 = live ++
        (order.filter fun c => decide (c ∈ sw.liveWants)).take (sw.broadcastLimit - live.length)
  | [], sw, live, _ => by simp [prepareLoop]
  | c :: order, sw, live, hlt => by
      rw [prepareLoop]
      split
      · rename_i hc
        have hlen : (live ++ [c]).length = live.length + 1 := by simp
        have htake : sw.broadcastLimit - live.length =
            (sw.broadcastLimit - (live.length + 1)) + 1 := by omega
        rw [List.filter_cons_of_pos (by simpa using hc), htake, List.take_succ_cons]
        dsimp only
        split
        · rename_i hfull
          rw [hlen] at hfull
          rw [← hfull, Nat.sub_self, List.take_zero]
        · rename_i hfull
          rw [hlen] at hfull
          have ih := prepareLoop_live now order
            { sw with liveWants := sw.liveWants.insert c now } (live ++ [c])
            (hlen ▸ Nat.lt_of_le_of_ne hlt hfull)
          simp only [(retimed_insert hc now).live] at ih
          rw [ih, hlen, List.append_assoc]
          rfl
      · rename_i hc
        rw [List.filter_cons_of_neg (by simpa using hc)]
        exact prepareLoop_live now order sw live hlt

/-! ## Runs -/

/-- The state after an operation. -/
def call (sw : SessionWants) : WantsCall → SessionWants
  | .blocksRequested newWants => sw.blocksRequested newWants
  | .getNextWants now => (sw.getNextWants now).1
  | .wantsSent now ks => sw.wantsSent now ks
  | .blocksReceived now ks => (sw.blocksReceived now ks).sw
  | .prepareBroadcast now => (sw.prepareBroadcast now).1
  | .cancelPending keys => sw.cancelPending keys

/-- The wants that a call makes live, in the order it does. -/
def madeLive (sw : SessionWants) : WantsCall → List Want
  | .getNextWants now => (sw.getNextWants now).2
  | .wantsSent now ks => sw.wentLive now ks
  | _ => []

/-- The wants whose blocks a call says are received. -/
def received : WantsCall → List Want
  | .blocksReceived _ ks => ks
  | _ => []

/-- A call makes wants live, or has blocks received. -/
theorem call_cases (sw : SessionWants) (c : WantsCall) :
    (received c = [] ∧ (sw.madeLive c).Nodup ∧ GoesLive sw (sw.madeLive c) (sw.call c)) ∨
      (sw.madeLive c = [] ∧ Receives sw (received c) (sw.call c)) := by
  cases c with
  | blocksRequested newWants =>
      exact .inl ⟨rfl, List.nodup_nil, .of_eq rfl (fun _ => Iff.rfl) rfl⟩
  | getNextWants now =>
      exact .inl ⟨rfl, (nodup_nextWants now _ sw).1.of_map _, goesLive_nextWants now _ sw⟩
  | wantsSent now ks =>
      exact .inl ⟨rfl, (nodup_wentLive now ks sw).1, goesLive_wantsSent now ks sw⟩
  | blocksReceived now ks => exact .inr ⟨rfl, receives_blocksReceived now sw ks⟩
  | prepareBroadcast now =>
      have h := retimed_prepareLoop now sw.liveWantsOrder sw []
      exact .inl ⟨rfl, List.nodup_nil, .of_eq h.order h.live h.limit⟩
  | cancelPending keys => exact .inl ⟨rfl, List.nodup_nil, .of_eq rfl (fun _ => Iff.rfl) rfl⟩

theorem broadcastLimit_call (sw : SessionWants) (c : WantsCall) :
    (sw.call c).broadcastLimit = sw.broadcastLimit := by
  rcases sw.call_cases c with ⟨-, -, h⟩ | ⟨-, h⟩
  · exact h.limit
  · exact h.limit

/-- Every live want is in the list. -/
def Listed (sw : SessionWants) : Prop := ∀ w ∈ sw.liveWants, w ∈ sw.liveWantsOrder

theorem listed_new (n : Nat) : Listed (new n) := fun w hw => by simp [new] at hw

theorem Listed.call {sw : SessionWants} (h : sw.Listed) (c : WantsCall) : (sw.call c).Listed := by
  intro w hw
  rcases sw.call_cases c with ⟨-, -, hgo⟩ | ⟨-, hrec⟩
  · rw [hgo.order, List.mem_append]
    exact ((hgo.live w).mp hw).imp_left (h w)
  · have hold := h w ((hrec.live w).mp hw).1
    rw [hrec.order]
    split
    · exact List.mem_filter.mpr ⟨hold, decide_eq_true hw⟩
    · exact hold

/-! ## The longest live -/

/-- A want goes live.  One that is live already keeps its place. -/
def enlist (lives : List Want) (c : Want) : List Want :=
  if c ∈ lives then lives else lives ++ [c]

theorem mem_foldl_enlist {w : Want} : ∀ (ws lives : List Want),
    w ∈ ws.foldl enlist lives ↔ w ∈ lives ∨ w ∈ ws
  | [], _ => by simp
  | c :: ws, lives => by
      have hone : w ∈ enlist lives c ↔ w ∈ lives ∨ w = c := by
        rw [enlist]
        split
        · rename_i hc
          exact ⟨.inl, fun h => h.elim (fun h => h) fun he => he ▸ hc⟩
        · rw [List.mem_append, List.mem_singleton]
      rw [List.foldl_cons, mem_foldl_enlist ws, hone, List.mem_cons, or_assoc]

theorem nodup_foldl_enlist : ∀ (ws : List Want) {lives : List Want}, lives.Nodup →
    (ws.foldl enlist lives).Nodup
  | [], _, h => h
  | c :: ws, lives, h => by
      refine nodup_foldl_enlist ws ?_
      rw [enlist]
      split
      · exact h
      · rename_i hc
        exact List.nodup_append.mpr ⟨h, List.nodup_singleton c, fun a ha b hb hab =>
          hc (List.mem_singleton.mp hb ▸ hab ▸ ha)⟩

/-- Wants that are new come at the end. -/
theorem foldl_enlist_of_disjoint : ∀ {ws lives : List Want}, ws.Nodup → (∀ w ∈ ws, w ∉ lives) →
    ws.foldl enlist lives = lives ++ ws
  | [], lives, _, _ => (List.append_nil lives).symm
  | c :: ws, lives, hnd, hnew => by
      obtain ⟨hc, hnd⟩ := List.nodup_cons.mp hnd
      obtain ⟨hclives, hnew⟩ := List.forall_mem_cons.mp hnew
      rw [List.foldl_cons, enlist, if_neg hclives, foldl_enlist_of_disjoint hnd, List.append_assoc]
      · rfl
      · intro w hw hin
        rcases List.mem_append.mp hin with hin | hin
        · exact hnew w hw hin
        · exact hc (List.mem_singleton.mp hin ▸ hw)

/-- A `sessionWants`, and beside it its live wants, those first that have been live the longest
without a break. -/
structure Timeline where
  sw : SessionWants
  lives : List Want

namespace Timeline

/-- Nothing has been called. -/
def start (broadcastLimit : Nat) : Timeline := ⟨.new broadcastLimit, []⟩

/-- A call: what is not live after it has had its break, and what it makes live has been live for
the shortest time. -/
def step (t : Timeline) (c : WantsCall) : Timeline where
  sw := t.sw.call c
  lives := (t.sw.madeLive c).foldl enlist
    (t.lives.filter fun w => decide (w ∈ (t.sw.call c).liveWants))

/-- What the call makes live is not in the list yet. -/
def Fresh (t : Timeline) (c : WantsCall) : Prop := ∀ w ∈ t.sw.madeLive c, w ∉ t.sw.liveWantsOrder

instance (t : Timeline) (c : WantsCall) : Decidable (t.Fresh c) :=
  inferInstanceAs (Decidable (∀ w ∈ _, _))

/-- The wants beside the map are the keys of the map, each once. -/
structure Faithful (t : Timeline) : Prop where
  nodup : t.lives.Nodup
  live : ∀ w, w ∈ t.lives ↔ w ∈ t.sw.liveWants

theorem Faithful.step {t : Timeline} (h : t.Faithful) (c : WantsCall) : (t.step c).Faithful := by
  refine ⟨nodup_foldl_enlist _ (h.nodup.filter _), fun w => ?_⟩
  show w ∈ (t.sw.madeLive c).foldl enlist _ ↔ w ∈ (t.sw.call c).liveWants
  rw [mem_foldl_enlist, List.mem_filter, decide_eq_true_iff, h.live]
  rcases t.sw.call_cases c with ⟨-, -, hgo⟩ | ⟨hnone, hrec⟩
  · rw [hgo.live]
    tauto
  · rw [hnone, hrec.live]
    simp

theorem Faithful.length {t : Timeline} (h : t.Faithful) : t.lives.length = t.sw.liveWants.len :=
  ((List.perm_ext_iff_of_nodup h.nodup t.sw.liveWants.nodupKeys).mpr h.live).length_eq

/-- The list has every want once, and of those that are live it says which have been live the
longest. -/
structure InOrder (t : Timeline) : Prop where
  faithful : t.Faithful
  nodup : t.sw.liveWantsOrder.Nodup
  order : (t.sw.liveWantsOrder.filter fun w => decide (w ∈ t.sw.liveWants)) = t.lives

theorem inOrder_start (n : Nat) : (start n).InOrder :=
  ⟨⟨List.nodup_nil, fun w => by simp [start, new]⟩, List.nodup_nil, rfl⟩

theorem InOrder.goesLive {t : Timeline} (h : t.InOrder) {ws : List Want} {sw' : SessionWants}
    (hgo : GoesLive t.sw ws sw') (hnd : ws.Nodup) (hfresh : ∀ w ∈ ws, w ∉ t.sw.liveWantsOrder) :
    sw'.liveWantsOrder.Nodup ∧
      (sw'.liveWantsOrder.filter fun w => decide (w ∈ sw'.liveWants)) = t.lives ++ ws ∧
      ws.foldl enlist (t.lives.filter fun w => decide (w ∈ sw'.liveWants)) = t.lives ++ ws := by
  have hold : ∀ w ∈ t.sw.liveWantsOrder, (w ∈ sw'.liveWants ↔ w ∈ t.sw.liveWants) := by
    intro w hw
    rw [hgo.live]
    exact or_iff_left fun hin => hfresh w hin hw
  have hlives : ∀ w ∈ t.lives, w ∈ t.sw.liveWantsOrder ∧ w ∈ sw'.liveWants := by
    intro w hw
    rw [← h.order, List.mem_filter, decide_eq_true_iff] at hw
    exact ⟨hw.1, (hold w hw.1).mpr hw.2⟩
  refine ⟨?_, ?_, ?_⟩
  · rw [hgo.order]
    refine List.nodup_append.mpr ⟨h.nodup, hnd, fun a ha b hb hab => ?_⟩
    exact hfresh b hb (hab ▸ ha)
  · rw [hgo.order, List.filter_append, ← h.order]
    congr 1
    · exact List.filter_congr fun w hw => decide_eq_decide.mpr (hold w hw)
    · exact List.filter_eq_self.mpr fun w hw => decide_eq_true ((hgo.live w).mpr (.inr hw))
  · rw [List.filter_eq_self.mpr fun w hw => decide_eq_true (hlives w hw).2]
    exact foldl_enlist_of_disjoint hnd fun w hw hin => hfresh w hw (hlives w hin).1

theorem InOrder.receives {t : Timeline} (h : t.InOrder) {ks : List Want} {sw' : SessionWants}
    (hrec : Receives t.sw ks sw') :
    sw'.liveWantsOrder.Nodup ∧
      (sw'.liveWantsOrder.filter fun w => decide (w ∈ sw'.liveWants)) =
        t.lives.filter fun w => decide (w ∈ sw'.liveWants) := by
  -- a want that is live after the receipt was live before it
  have hfilter : (t.lives.filter fun w => decide (w ∈ sw'.liveWants)) =
      t.sw.liveWantsOrder.filter fun w => decide (w ∈ sw'.liveWants) := by
    rw [← h.order, List.filter_filter]
    refine List.filter_congr fun w _ => ?_
    rw [← Bool.decide_and]
    exact decide_eq_decide.mpr (and_iff_left_of_imp fun hw => ((hrec.live w).mp hw).1)
  rw [hfilter, hrec.order]
  split
  · refine ⟨h.nodup.filter _, ?_⟩
    rw [List.filter_filter]
    simp only [Bool.and_self]
  · exact ⟨h.nodup, rfl⟩

theorem InOrder.step (t : Timeline) (c : WantsCall) (h : t.InOrder) (hfresh : t.Fresh c) :
    (t.step c).InOrder := by
  rcases t.sw.call_cases c with ⟨-, hnd, hgo⟩ | ⟨hnone, hrec⟩
  · obtain ⟨hnodup, horder, hlives⟩ := h.goesLive hgo hnd hfresh
    exact ⟨h.faithful.step c, hnodup, horder.trans hlives.symm⟩
  · obtain ⟨hnodup, horder⟩ := h.receives hrec
    refine ⟨h.faithful.step c, hnodup, horder.trans ?_⟩
    show _ = (t.sw.madeLive c).foldl enlist _
    rw [hnone]
    rfl

/-- The right broadcast: the wants that have been live the longest, as many as the limit has. -/
structure Broadcasts (t : Timeline) (wants : List Want) : Prop where
  nodup : wants.Nodup
  length : wants.length = min t.sw.broadcastLimit t.sw.liveWants.len
  live : ∀ w ∈ wants, w ∈ t.sw.liveWants
  longest : wants = t.lives.take t.sw.broadcastLimit

theorem Faithful.broadcasts {t : Timeline} (h : t.Faithful) :
    t.Broadcasts (t.lives.take t.sw.broadcastLimit) where
  nodup := h.nodup.sublist (List.take_sublist _ _)
  length := by rw [List.length_take, h.length]
  live w hw := (h.live w).mp (List.mem_of_mem_take hw)
  longest := rfl

end Timeline

open Timeline in
/-- **Idle broadcasts.**  In every run in which no want goes live while it is in the list, the wants
of a broadcast are those that have been live the longest, each once, as many as the limit and the
live wants allow. -/
theorem broadcasts_longest_live (n : Nat) (hn : 0 < n) (calls : List WantsCall)
    (hfresh : Meets Timeline.step Fresh (start n) calls) (now : Time) :
    let t := run Timeline.step (start n) calls
    t.sw.broadcastLimit = n ∧ (∀ w, w ∈ t.lives ↔ w ∈ t.sw.liveWants) ∧
      t.Broadcasts (t.sw.prepareBroadcast now).2 := by
  intro t
  have hlimit : t.sw.broadcastLimit = n := by
    refine run_invariant (I := fun t : Timeline => t.sw.broadcastLimit = n) ?_ calls rfl
    exact fun t c h => (broadcastLimit_call t.sw c).trans h
  have horder : t.InOrder :=
    (always_of_meets (fun _ h => h) InOrder.step calls (inOrder_start n) hfresh).last
  refine ⟨hlimit, horder.faithful.live, ?_⟩
  have hlive := prepareLoop_live now t.sw.liveWantsOrder t.sw [] (hlimit ▸ hn)
  rw [List.nil_append, List.length_nil, Nat.sub_zero, horder.order] at hlive
  rw [prepareBroadcast, hlive]
  exact horder.faithful.broadcasts

/-- One want may be broadcast.  Of three that are live the first is received. -/
theorem broadcasts_longest_live_one :
    let w : Want := ⟨⟨[1]⟩, []⟩
    let w' : Want := ⟨⟨[2]⟩, []⟩
    let w'' : Want := ⟨⟨[3]⟩, []⟩
    let t := run Timeline.step (.start 1)
      [.blocksRequested [w, w', w''], .getNextWants 0, .wantsSent 1 [w', w''],
        .prepareBroadcast 2, .blocksReceived 3 [w]]
    t.lives = [w', w''] ∧ t.Broadcasts (t.sw.prepareBroadcast 4).2 := by
  intro w w' w'' t
  exact ⟨by decide, (broadcasts_longest_live 1 (by decide) _ (by decide) 4).2.2⟩

/-- A want that is asked for again while it is live is broadcast twice, and one that is asked for
again after it was received is broadcast before one that has been live for longer. -/
theorem broadcast_twice :
    let w : Want := ⟨⟨[1]⟩, []⟩
    let w' : Want := ⟨⟨[2]⟩, []⟩
    let t := run Timeline.step (.start 5)
      [.blocksRequested [w], .getNextWants 0, .blocksRequested [w], .getNextWants 1]
    let t' := run Timeline.step (.start 1)
      [.blocksRequested [w], .getNextWants 0, .blocksRequested [w'], .wantsSent 1 [w'],
        .blocksReceived 2 [w], .blocksRequested [w], .wantsSent 3 [w]]
    t.lives = [w] ∧ (t.sw.prepareBroadcast 2).2 = [w, w] ∧
      t'.lives = [w', w] ∧ (t'.sw.prepareBroadcast 4).2 = [w] := by
  decide

/-! ## A random live want -/

/-- The random index can come to any want of the list. -/
theorem exists_randomLiveWant {sw : SessionWants} {w : Want} (hw : w ∈ sw.liveWantsOrder) :
    ∃ i, sw.randomLiveWant i = w := by
  obtain ⟨i, hi, rfl⟩ := List.mem_iff_getElem.mp hw
  refine ⟨i, ?_⟩
  rw [randomLiveWant, Nat.mod_eq_of_lt hi, List.getElem?_eq_getElem hi]
  rfl

/-- It comes to one of them, if there are any. -/
theorem randomLiveWant_mem {sw : SessionWants} (h : sw.liveWantsOrder ≠ []) (i : Nat) :
    sw.randomLiveWant i ∈ sw.liveWantsOrder := by
  have hi : i % sw.liveWantsOrder.length < sw.liveWantsOrder.length :=
    Nat.mod_lt i (List.length_pos_iff.mpr h)
  rw [randomLiveWant, List.getElem?_eq_getElem hi]
  exact List.getElem_mem hi

theorem randomLiveWant_nil {sw : SessionWants} (h : sw.liveWantsOrder = []) (i : Nat) :
    sw.randomLiveWant i = .undefined := by
  rw [randomLiveWant, h]
  rfl

/-- The want is what a random live want should be: a live one, or the undefined want if there is
none. -/
def Fits (sw : SessionWants) (w : Want) : Prop :=
  (w = .undefined ↔ sw.hasLiveWants = false) ∧ (sw.hasLiveWants = true → w ∈ sw.liveWants)

theorem hasLiveWants_iff {sw : SessionWants} :
    sw.hasLiveWants = true ↔ ∃ w, w ∈ sw.liveWants := by
  rw [hasLiveWants, decide_eq_true_iff, ← GoMap.len_ne_zero]
  exact Nat.pos_iff_ne_zero

/-- What fits is the undefined want or a live one. -/
theorem Fits.live {sw : SessionWants} {w : Want} (h : sw.Fits w) (hw : w ≠ .undefined) :
    w ∈ sw.liveWants :=
  h.2 (Bool.eq_true_of_not_eq_false fun hno => hw (h.1.mpr hno))

/-- A random want always fits just if all the wants of the list do. -/
theorem fits_randomLiveWant_iff {sw : SessionWants} (h : sw.Listed) :
    (∀ i, sw.Fits (sw.randomLiveWant i)) ↔ ∀ w ∈ sw.liveWantsOrder, sw.Fits w := by
  constructor
  · intro hfits w hw
    obtain ⟨i, rfl⟩ := exists_randomLiveWant hw
    exact hfits i
  · intro hfits i
    by_cases hnil : sw.liveWantsOrder = []
    · -- an empty list has no live wants beside it
      have hno : sw.hasLiveWants = false := by
        rw [Bool.eq_false_iff]
        intro hlive
        obtain ⟨w, hw⟩ := hasLiveWants_iff.mp hlive
        exact List.not_mem_nil (hnil ▸ h w hw)
      rw [randomLiveWant_nil hnil]
      exact ⟨iff_of_true rfl hno, fun hlive => by rw [hno] at hlive; cases hlive⟩
    · exact hfits _ (randomLiveWant_mem hnil i)

/-- The periodic search asks for live wants only, whatever the random index. -/
def SearchesLive (sw : SessionWants) : Prop :=
  (∀ i, sw.Fits (sw.randomLiveWant i)) ∧
    ∀ (s : Session) (i nextWaitTime : Nat), s.sw = sw →
      ∀ w ∈ (s.handlePeriodicSearch i nextWaitTime).2, w ∈ sw.liveWants

theorem searchesLive_iff {sw : SessionWants} (h : sw.Listed) :
    sw.SearchesLive ↔ ∀ w ∈ sw.liveWantsOrder, sw.Fits w := by
  rw [SearchesLive, fits_randomLiveWant_iff h]
  refine and_iff_left_of_imp fun hfits s i nextWaitTime hs w hw => ?_
  rw [Session.handlePeriodicSearch] at hw
  split at hw
  · rename_i hdef
    obtain rfl := List.mem_singleton.mp hw
    rw [hs] at hdef ⊢
    refine ((fits_randomLiveWant_iff h).mpr hfits i).live fun hundef => ?_
    rw [hundef] at hdef
    cases hdef
  · exact absurd hw List.not_mem_nil

/-- The call does not bring the list out of step with the map: it does not make the undefined want
live, and if it receives the block of a live want the list is cleared, for which it has to be more
than `liveWantsOrderGCLimit` too long. -/
def KeepsStep (sw : SessionWants) (c : WantsCall) : Prop :=
  .undefined ∉ sw.madeLive c ∧ ((∃ w ∈ received c, w ∈ sw.liveWants) →
    liveWantsOrderGCLimit < sw.liveWantsOrder.length - (sw.call c).liveWants.len)

/-- The list and the map have the same wants, and the undefined one is not among them. -/
structure InStep (sw : SessionWants) : Prop where
  listed : sw.Listed
  live : ∀ w ∈ sw.liveWantsOrder, w ∈ sw.liveWants ∧ w ≠ .undefined

theorem inStep_new (n : Nat) : InStep (new n) :=
  ⟨listed_new n, fun _ hw => absurd hw List.not_mem_nil⟩

theorem InStep.searchesLive (sw : SessionWants) (h : sw.InStep) : sw.SearchesLive := by
  refine (searchesLive_iff h.listed).mpr fun w hw => ?_
  obtain ⟨hlive, hdef⟩ := h.live w hw
  have hhas : sw.hasLiveWants = true := hasLiveWants_iff.mpr ⟨w, hlive⟩
  exact ⟨iff_of_false hdef (by simp [hhas]), fun _ => hlive⟩

theorem InStep.call (sw : SessionWants) (c : WantsCall) (h : sw.InStep) (hok : sw.KeepsStep c) :
    (sw.call c).InStep := by
  refine ⟨h.listed.call c, fun w hw => ?_⟩
  rcases sw.call_cases c with ⟨-, -, hgo⟩ | ⟨-, hrec⟩
  · rw [hgo.order, List.mem_append] at hw
    rw [hgo.live]
    rcases hw with hw | hw
    · exact ⟨.inl (h.live w hw).1, (h.live w hw).2⟩
    · exact ⟨.inr hw, fun hundef => hok.1 (hundef ▸ hw)⟩
  · rw [hrec.order] at hw
    split at hw
    · obtain ⟨hw, hlive⟩ := List.mem_filter.mp hw
      exact ⟨of_decide_eq_true hlive, (h.live w hw).2⟩
    · rename_i hfew
      obtain ⟨hlive, hdef⟩ := h.live w hw
      -- had its block come, the list would have been cleared
      refine ⟨(hrec.live w).mpr ⟨hlive, fun hin => hfew ⟨?_, hok.2 ⟨w, hin, hlive⟩⟩⟩, hdef⟩
      exact List.ne_nil_of_mem hin

/-- A list out of step is found out by some random index. -/
theorem InStep.not_searchesLive (sw : SessionWants) (c : WantsCall) (h : sw.InStep)
    (hbad : ¬ sw.KeepsStep c) : ¬ (sw.call c).SearchesLive := by
  rw [searchesLive_iff (h.listed.call c)]
  intro hfits
  rcases sw.call_cases c with ⟨hnone, -, hgo⟩ | ⟨hnone, hrec⟩
  · -- the undefined want went live
    refine hbad ⟨fun hundef => ?_, fun hin => ?_⟩
    · have hlive : .undefined ∈ (sw.call c).liveWants := (hgo.live _).mpr (.inr hundef)
      have hno := (hfits .undefined ((h.listed.call c) _ hlive)).1.mp rfl
      rw [hasLiveWants_iff.mpr ⟨_, hlive⟩] at hno
      cases hno
    · obtain ⟨w, hin, -⟩ := hin
      rw [hnone] at hin
      exact absurd hin List.not_mem_nil
  · -- a block was received, and its want stays in the list
    refine hbad ⟨by simp [hnone], ?_⟩
    rintro ⟨w, hin, hlive⟩
    by_contra hfew
    have horder := hrec.order
    rw [if_neg fun hmany => hfew hmany.2] at horder
    have hw : w ∈ sw.liveWantsOrder := h.listed w hlive
    have hstill := (hfits w (horder ▸ hw)).live (h.live w hw).2
    exact ((hrec.live w).mp hstill).2 hin

end SessionWants

open SessionWants in
/-- **The periodic search.**  All along a run the search asks for live wants only just if no call of
it brings the list out of step with the map; and after a run it does just if each want of the list
is what a random live want should be. -/
theorem Session.searches_live_iff (n : Nat) (calls : List WantsCall) :
    (Always call SearchesLive (.new n) calls ↔ Meets call KeepsStep (.new n) calls) ∧
      ((run call (.new n) calls).SearchesLive ↔
        ∀ w ∈ (run call (.new n) calls).liveWantsOrder, (run call (.new n) calls).Fits w) := by
  refine ⟨always_iff_meets InStep.searchesLive InStep.call InStep.not_searchesLive calls
    (inStep_new n), searchesLive_iff ?_⟩
  exact run_invariant (I := Listed) (fun _ c h => h.call c) calls (listed_new n)

/-- The want is live, then its block is received: the search broadcasts it. -/
theorem Session.search_received :
    let w : Want := ⟨⟨[1]⟩, []⟩
    let sw := run SessionWants.call (.new 5)
      [.blocksRequested [w], .getNextWants 0, .blocksReceived 1 [w]]
    let s : Session := { new 1 (fun _ => .plain) 5 60 with sw := sw }
    sw.hasLiveWants = false ∧ sw.randomLiveWant 0 = w ∧ (s.handlePeriodicSearch 0 60).2 = [w] := by
  decide

end BitswapAuth
