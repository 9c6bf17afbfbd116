/-
# `BitswapAuth.Session.Wants` — what a session still waits for

`sessionWants`: the wants of a session that were not sent yet, in a queue, and
those that were, in a map with the time of sending.  A want leaves either when
its block is received.

The queue is keyed by CID although its elements are wants, and it forgets a CID
without looking for the element.  Of two wants of one block the second is not
taken in, and one that is put back may be found behind an older copy of itself.
`isWanted` looks at both parts; as long as a session asks for a block under one
auth string, only a request and a receipt change it.
-/
import BitswapAuth.Auth

namespace BitswapAuth

open Lib

/-! ## The queue -/

/-- `cidQueue`.  A CID of the set has an element in the list. -/
structure CidQueue where
  elems : List Want
  eset : GoSet Cid
  held : ∀ c ∈ eset, ∃ w ∈ elems, w.cid = c

namespace CidQueue

/-- `newCidQueue`. -/
def new : CidQueue := ⟨[], ∅, by simp⟩

/-- The loop of `Pop`: the element, and what is left of the list and the set. -/
def popLoop (eset : GoSet Cid) : List Want → Want × List Want × GoSet Cid
  | [] => (.undefined, [], eset)
  | out :: elems =>
      if eset.has out.cid then (out, elems, eset.remove out.cid) else popLoop eset elems

theorem popLoop_held {eset : GoSet Cid} : ∀ {elems : List Want},
    (∀ c ∈ eset, ∃ w ∈ elems, w.cid = c) →
    ∀ c ∈ (popLoop eset elems).2.2, ∃ w ∈ (popLoop eset elems).2.1, w.cid = c
  | [], h => h
  | out :: elems, h => by
      rw [popLoop]
      split
      · intro c hc
        obtain ⟨hne, hc⟩ := GoSet.mem_remove.mp hc
        obtain ⟨w, hw, rfl⟩ := h c hc
        exact ⟨w, (List.mem_cons.mp hw).resolve_left fun he => hne (he ▸ rfl), rfl⟩
      · rename_i hout
        refine popLoop_held fun c hc => ?_
        obtain ⟨w, hw, rfl⟩ := h c hc
        refine ⟨w, (List.mem_cons.mp hw).resolve_left ?_, rfl⟩
        rintro rfl
        exact hout (GoSet.has_eq_true.mpr hc)

/-- `Pop`. -/
def pop (cq : CidQueue) : Want × CidQueue :=
  let r := popLoop cq.eset cq.elems
  (r.1, ⟨r.2.1, r.2.2, popLoop_held cq.held⟩)

/-- The elements that `Cids` keeps: if the list has more than the set, those of the
set. -/
def kept (cq : CidQueue) : List Want :=
  if cq.elems.length > cq.eset.len then cq.elems.filter fun c => cq.eset.has c.cid else cq.elems

theorem kept_held (cq : CidQueue) : ∀ c ∈ cq.eset, ∃ w ∈ cq.kept, w.cid = c := by
  intro c hc
  obtain ⟨w, hw, rfl⟩ := cq.held c hc
  refine ⟨w, ?_, rfl⟩
  rw [kept]
  split
  · exact List.mem_filter.mpr ⟨hw, GoSet.has_eq_true.mpr hc⟩
  · exact hw

/-- `Cids`. -/
def cids (cq : CidQueue) : List Want × CidQueue := (cq.kept, ⟨cq.kept, cq.eset, cq.kept_held⟩)

/-- `Push`. -/
def push (cq : CidQueue) (c : Want) : CidQueue :=
  if cq.eset.has c.cid then cq
  else
    ⟨cq.elems ++ [c], cq.eset.add c.cid, by
      intro k hk
      rcases GoSet.mem_add.mp hk with rfl | hk
      · exact ⟨c, by simp, rfl⟩
      · obtain ⟨w, hw, rfl⟩ := cq.held k hk
        exact ⟨w, List.mem_append_left _ hw, rfl⟩⟩

/-- `Remove`. -/
def remove (cq : CidQueue) (c : Cid) : CidQueue :=
  ⟨cq.elems, cq.eset.remove c, fun k hk => cq.held k (GoSet.mem_remove.mp hk).2⟩

/-- `Has`. -/
def has (cq : CidQueue) (c : Cid) : Bool := cq.eset.has c

/-- `Len`. -/
def len (cq : CidQueue) : Nat := cq.eset.len

/-- The want is in the queue. -/
def Queued (cq : CidQueue) (w : Want) : Prop := w ∈ cq.elems ∧ cq.has w.cid = true

instance (cq : CidQueue) (w : Want) : Decidable (cq.Queued w) := inferInstanceAs (Decidable (_ ∧ _))

theorem has_push {cq : CidQueue} {k : Want} {c : Cid} :
    (cq.push k).has c = true ↔ c = k.cid ∨ cq.has c = true := by
  unfold push has
  split
  · rename_i hk
    rw [GoSet.has_eq_true] at hk ⊢
    exact ⟨.inr, fun h => h.elim (fun h => h ▸ hk) id⟩
  · rw [GoSet.has_eq_true, GoSet.mem_add, GoSet.has_eq_true]

theorem has_foldl_push {c : Cid} : ∀ (ws : List Want) (cq : CidQueue),
    (ws.foldl push cq).has c = true ↔ cq.has c = true ∨ ∃ k ∈ ws, k.cid = c
  | [], cq => by simp
  | a :: ws, cq => by
      rw [List.foldl_cons, has_foldl_push ws, has_push]
      simp only [List.mem_cons, exists_eq_or_imp, eq_comm (a := c)]
      rw [or_comm (a := a.cid = c), or_assoc]

theorem has_remove {cq : CidQueue} {k c : Cid} :
    (cq.remove k).has c = true ↔ c ≠ k ∧ cq.has c = true := by
  unfold remove has
  rw [GoSet.has_eq_true, GoSet.mem_remove, GoSet.has_eq_true]

/-- The loop of `Pop` skips the elements whose CID was removed, and ends at one whose
CID was not. -/
theorem popLoop_split {eset : GoSet Cid} : ∀ {l : List Want}, (∃ k ∈ l, k.cid ∈ eset) →
    ∃ stale out rest, l = stale ++ out :: rest ∧ (∀ k ∈ stale, k.cid ∉ eset) ∧ out.cid ∈ eset ∧
      popLoop eset l = (out, rest, eset.remove out.cid)
  | [], h => by simp at h
  | a :: l, h => by
      by_cases ha : a.cid ∈ eset
      · exact ⟨[], a, l, rfl, by simp, ha, if_pos (GoSet.has_eq_true.mpr ha)⟩
      · obtain ⟨k, hk, hke⟩ := h
        have hkl : k ∈ l := (List.mem_cons.mp hk).resolve_left fun he => ha (he ▸ hke)
        obtain ⟨stale, out, rest, hl, hstale, hout, hpop⟩ := popLoop_split ⟨k, hkl, hke⟩
        refine ⟨a :: stale, out, rest, by rw [hl]; rfl, ?_, hout, ?_⟩
        · exact List.forall_mem_cons.mpr ⟨ha, hstale⟩
        · rw [← hpop]
          exact if_neg fun h => ha (GoSet.has_eq_true.mp h)

/-- What is popped from a queue that is not empty. -/
structure Popped (cq : CidQueue) (w : Want) (cq' : CidQueue) : Prop where
  split : ∃ stale, cq.elems = stale ++ w :: cq'.elems ∧ ∀ k ∈ stale, cq.has k.cid = false
  has : cq.has w.cid = true
  left : ∀ c, cq'.has c = true ↔ c ≠ w.cid ∧ cq.has c = true

theorem popped_pop {cq : CidQueue} (h : cq.len ≠ 0) : Popped cq cq.pop.1 cq.pop.2 := by
  obtain ⟨c, hc⟩ : ∃ c, c ∈ cq.eset := GoMap.len_ne_zero.mp h
  obtain ⟨w, hw, rfl⟩ := cq.held c hc
  obtain ⟨stale, out, rest, hl, hstale, hout, hpop⟩ := popLoop_split ⟨w, hw, hc⟩
  have h₁ : cq.pop.1 = out := congrArg Prod.fst hpop
  have h₂ : cq.pop.2.elems = rest := congrArg (·.2.1) hpop
  have h₃ : cq.pop.2.eset = cq.eset.remove out.cid := congrArg (·.2.2) hpop
  refine ⟨⟨stale, by rw [hl, h₁, h₂], fun k hk => GoSet.has_eq_false.mpr (hstale k hk)⟩, ?_, ?_⟩
  · rw [h₁]
    exact GoSet.has_eq_true.mpr hout
  · intro c
    show GoSet.has cq.pop.2.eset c = true ↔ _
    rw [h₃, h₁, GoSet.has_eq_true, GoSet.mem_remove]
    exact and_congr_right fun _ => GoSet.has_eq_true.symm

theorem Popped.mem {cq cq' : CidQueue} {w : Want} (h : Popped cq w cq') : w ∈ cq.elems := by
  obtain ⟨stale, hl, -⟩ := h.split
  rw [hl]
  exact List.mem_append_right _ List.mem_cons_self

theorem Popped.elems {cq cq' : CidQueue} {w : Want} (h : Popped cq w cq') :
    ∀ k ∈ cq'.elems, k ∈ cq.elems := by
  intro k hk
  obtain ⟨stale, hl, -⟩ := h.split
  rw [hl]
  exact List.mem_append_right _ (List.mem_cons_of_mem w hk)

end CidQueue

/-! ## The wants of a session -/

/-- `liveWantsOrderGCLimit`. -/
def liveWantsOrderGCLimit : Nat := 32

/-- `broadcastLiveWantsLimit`. -/
def broadcastLiveWantsLimit : Nat := 64

/-- `sessionWants`. -/
structure SessionWants where
  toFetch : CidQueue
  liveWants : GoMap Want Time
  liveWantsOrder : List Want
  broadcastLimit : Nat

namespace SessionWants

/-- `newSessionWants`. -/
def new (broadcastLimit : Nat) : SessionWants := ⟨.new, ∅, [], broadcastLimit⟩

/-- `BlocksRequested`. -/
def blocksRequested (sw : SessionWants) (newWants : List Want) : SessionWants :=
  { sw with toFetch := newWants.foldl CidQueue.push sw.toFetch }

/-- A want that is sent becomes live. -/
def goLive (now : Time) (sw : SessionWants) (c : Want) : SessionWants :=
  { sw with
    liveWantsOrder := sw.liveWantsOrder ++ [c]
    liveWants := sw.liveWants.insert c now }

/-- The loop of `GetNextWants`, which makes at most `toAdd` rounds. -/
def nextWants (now : Time) : Nat → SessionWants → SessionWants × List Want
  | 0, sw => (sw, [])
  | toAdd + 1, sw =>
      if sw.toFetch.len = 0 then (sw, [])
      else
        let c := sw.toFetch.pop
        let r := nextWants now toAdd (goLive now { sw with toFetch := c.2 } c.1)
        (r.1, c.1 :: r.2)

/-- `GetNextWants`. -/
def getNextWants (now : Time) (sw : SessionWants) : SessionWants × List Want :=
  sw.nextWants now (sw.broadcastLimit - sw.liveWants.len)

/-- One round of `WantsSent`. -/
def wantSent (now : Time) (sw : SessionWants) (c : Want) : SessionWants :=
  if c ∉ sw.liveWants ∧ sw.toFetch.has c.cid = true then
    goLive now { sw with toFetch := sw.toFetch.remove c.cid } c
  else sw

/-- `WantsSent`. -/
def wantsSent (now : Time) (sw : SessionWants) (ks : List Want) : SessionWants :=
  ks.foldl (wantSent now) sw

/-- `isWanted`. -/
def isWanted (sw : SessionWants) (w : Want) : Bool :=
  decide (w ∈ sw.liveWants) || sw.toFetch.has w.cid

/-- The variables of the loop of `BlocksReceived`. -/
structure Receipt where
  sw : SessionWants
  wanted : List Want
  totalLatency : Nat

/-- One round of `BlocksReceived`. -/
def Receipt.block (now : Time) (s : Receipt) (c : Want) : Receipt :=
  if s.sw.isWanted c then
    { sw := { s.sw with
        liveWants := s.sw.liveWants.erase c
        toFetch := s.sw.toFetch.remove c.cid }
      wanted := s.wanted ++ [c]
      -- the zero time is not a time of sending
      totalLatency := s.totalLatency +
        match s.sw.liveWants.lookup c with
        | some sentAt => if sentAt = 0 then 0 else now - sentAt
        | none => 0 }
  else s

/-- The ordering array, cleaned up once it is a long way out of sync. -/
def cleaned (sw : SessionWants) : SessionWants :=
  if sw.liveWantsOrder.length - sw.liveWants.len > liveWantsOrderGCLimit then
    { sw with liveWantsOrder := sw.liveWantsOrder.filter fun c => decide (c ∈ sw.liveWants) }
  else sw

/-- `BlocksReceived`: the state, the blocks that were wanted, and the latency. -/
def blocksReceived (now : Time) (sw : SessionWants) (ks : List Want) : Receipt :=
  if ks.isEmpty then ⟨sw, [], 0⟩
  else
    let s := ks.foldl (Receipt.block now) ⟨sw, [], 0⟩
    { s with sw := s.sw.cleaned }

/-- The loop of `PrepareBroadcast`, which ends when as many live wants are found as
the limit has. -/
def prepareLoop (now : Time) (sw : SessionWants) (live : List Want) :
    List Want → SessionWants × List Want
  | [] => (sw, live)
  | c :: order =>
      if c ∈ sw.liveWants then
        let sw := { sw with liveWants := sw.liveWants.insert c now }
        let live := live ++ [c]
        if live.length = sw.broadcastLimit then (sw, live) else prepareLoop now sw live order
      else prepareLoop now sw live order

/-- `PrepareBroadcast`. -/
def prepareBroadcast (now : Time) (sw : SessionWants) : SessionWants × List Want :=
  prepareLoop now sw [] sw.liveWantsOrder

/-- `CancelPending`. -/
def cancelPending (sw : SessionWants) (keys : List Cid) : SessionWants :=
  { sw with toFetch := keys.foldl CidQueue.remove sw.toFetch }

/-- `RandomLiveWant`, for the random index. -/
def randomLiveWant (sw : SessionWants) (i : Nat) : Want :=
  (sw.liveWantsOrder[i % sw.liveWantsOrder.length]?).getD .undefined

/-- `HasLiveWants`. -/
def hasLiveWants (sw : SessionWants) : Bool := sw.liveWants.len > 0

/-! ## What is wanted -/

theorem isWanted_iff {sw : SessionWants} {w : Want} :
    sw.isWanted w = true ↔ w ∈ sw.liveWants ∨ sw.toFetch.has w.cid = true := by
  rw [isWanted]
  rw [Bool.or_eq_true, decide_eq_true_iff]

/-- The wants in the queue and the live ones are of a kind. -/
structure Among (P : Want → Prop) (sw : SessionWants) : Prop where
  queued : ∀ k ∈ sw.toFetch.elems, P k
  live : ∀ k ∈ sw.liveWants, P k

variable {P : Want → Prop} {sw : SessionWants} {w : Want} {now : Time}

theorem among_new (n : Nat) : Among P (new n) :=
  ⟨fun k hk => by simp [new, CidQueue.new] at hk, fun k hk => by simp [new] at hk⟩

theorem Among.imp {Q : Want → Prop} (h : Among P sw) (hPQ : ∀ k, P k → Q k) : Among Q sw :=
  ⟨fun k hk => hPQ k (h.queued k hk), fun k hk => hPQ k (h.live k hk)⟩

/-- The want is the only one of its block. -/
def Sole (w k : Want) : Prop := k.cid = w.cid → k = w

instance (w k : Want) : Decidable (Sole w k) := inferInstanceAs (Decidable (_ → _))

/-! ### Requests and receipts -/

theorem isWanted_blocksRequested (ws : List Want) : (sw.blocksRequested ws).isWanted w = true ↔
    sw.isWanted w = true ∨ ∃ k ∈ ws, k.cid = w.cid := by
  rw [isWanted_iff, isWanted_iff, or_assoc]
  exact or_congr_right (CidQueue.has_foldl_push ws sw.toFetch)

theorem Among.blocksRequested (h : Among P sw) {ws : List Want} (hws : ∀ k ∈ ws, P k) :
    Among P (sw.blocksRequested ws) := by
  refine ⟨fun k hk => ?_, h.live⟩
  have hmem : ∀ (l : List Want) (cq : CidQueue), k ∈ (l.foldl CidQueue.push cq).elems →
      k ∈ cq.elems ∨ k ∈ l := by
    intro l
    induction l with
    | nil => exact fun cq => .inl
    | cons a l ih =>
        intro cq hk
        rw [List.mem_cons]
        rcases ih _ hk with hk | hk
        · unfold CidQueue.push at hk
          split at hk
          · exact .inl hk
          · exact (List.mem_append.mp hk).imp_right fun hk => .inl (List.mem_singleton.mp hk)
        · exact .inr (.inr hk)
  exact (hmem ws sw.toFetch hk).elim (h.queued k) (hws k)

/-- One block received: it is no longer wanted, and nothing else changes. -/
structure Receipt.Took (c : Want) (s s' : Receipt) : Prop where
  wanted : ∀ w, w ∈ s'.wanted ↔ w ∈ s.wanted ∨ (w = c ∧ s.sw.isWanted c = true)
  isWanted : ∀ w, Sole w c → (s'.sw.isWanted w = true ↔ s.sw.isWanted w = true ∧ w ≠ c)
  among : ∀ P, Among P s.sw → Among P s'.sw

theorem Receipt.took_block (now : Time) (s : Receipt) (c : Want) : Took c s (s.block now c) := by
  rw [Receipt.block]
  split
  · rename_i hc
    refine ⟨fun w => by simp [hc], fun w hw => ?_, fun P h => ⟨h.queued, fun k hk => ?_⟩⟩
    · rw [isWanted_iff, isWanted_iff]
      dsimp only
      rw [AList.mem_erase, CidQueue.has_remove]
      by_cases he : w = c
      · subst he; simp
      · have hne : w.cid ≠ c.cid := fun h => he (hw h.symm).symm
        simp [he, hne]
    · exact h.live k (AList.mem_erase.mp hk).2
  · rename_i hc
    refine ⟨fun w => by simp [hc], fun w _ => ?_, fun P h => h⟩
    constructor
    · exact fun h => ⟨h, fun he => hc (he ▸ h)⟩
    · exact fun h => h.1

theorem isWanted_cleaned : sw.cleaned.isWanted w = sw.isWanted w := by
  rw [cleaned]
  split <;> rfl

theorem Among.cleaned (h : Among P sw) : Among P sw.cleaned := by
  rw [SessionWants.cleaned]
  split <;> exact ⟨h.queued, h.live⟩

/-- The blocks received: none of them is wanted any more. -/
structure Received (ks : List Want) (sw : SessionWants) (r : Receipt) : Prop where
  wanted : ∀ w, (∀ k ∈ ks, Sole w k) → (w ∈ r.wanted ↔ w ∈ ks ∧ sw.isWanted w = true)
  isWanted : ∀ w, (∀ k ∈ ks, Sole w k) →
    (r.sw.isWanted w = true ↔ sw.isWanted w = true ∧ w ∉ ks)
  among : ∀ P, Among P sw → Among P r.sw

theorem received_blocksReceived (now : Time) (sw : SessionWants) (ks : List Want) :
    Received ks sw (sw.blocksReceived now ks) := by
  -- the loop, from any state of its variables
  have hloop : ∀ (l : List Want) (s : Receipt),
      (∀ w, (∀ k ∈ l, Sole w k) → (w ∈ (l.foldl (Receipt.block now) s).wanted ↔
        w ∈ s.wanted ∨ (w ∈ l ∧ s.sw.isWanted w = true))) ∧
      (∀ w, (∀ k ∈ l, Sole w k) → ((l.foldl (Receipt.block now) s).sw.isWanted w = true ↔
        s.sw.isWanted w = true ∧ w ∉ l)) ∧
      ∀ P, Among P s.sw → Among P (l.foldl (Receipt.block now) s).sw := by
    intro l
    induction l with
    | nil => simp
    | cons c l ih =>
        intro s
        have ht := Receipt.took_block now s c
        obtain ⟨ih₁, ih₂, ih₃⟩ := ih (s.block now c)
        refine ⟨fun w hw => ?_, fun w hw => ?_, fun P h => ih₃ P (ht.among P h)⟩
        · obtain ⟨hc, hl⟩ := List.forall_mem_cons.mp hw
          rw [List.foldl_cons, ih₁ w hl, ht.wanted, ht.isWanted w hc, List.mem_cons]
          by_cases he : w = c
          · subst he; simp
          · simp [he]
        · obtain ⟨hc, hl⟩ := List.forall_mem_cons.mp hw
          rw [List.foldl_cons, ih₂ w hl, ht.isWanted w hc, List.mem_cons, not_or, and_assoc]
  obtain ⟨h₁, h₂, h₃⟩ := hloop ks ⟨sw, [], 0⟩
  rw [blocksReceived]
  split
  · rename_i hks
    obtain rfl : ks = [] := List.isEmpty_iff.mp hks
    exact ⟨fun w _ => by simp, fun w _ => by simp, fun P h => h⟩
  · refine ⟨fun w hw => (h₁ w hw).trans (by simp), fun w hw => ?_, fun P h => (h₃ P h).cleaned⟩
    show (SessionWants.cleaned _).isWanted w = true ↔ _
    rw [isWanted_cleaned]
    exact h₂ w hw

/-! ### Sending -/

/-- What sending leaves as it is. -/
structure Resent (P : Want → Prop) (sw sw' : SessionWants) : Prop where
  isWanted : ∀ w, (∀ k, P k → Sole w k) → (sw'.isWanted w = true ↔ sw.isWanted w = true)
  among : Among P sw'

theorem Resent.trans {a b c : SessionWants} (h : Resent P a b) (h' : Resent P b c) : Resent P a c :=
  ⟨fun w hw => (h'.isWanted w hw).trans (h.isWanted w hw), h'.among⟩

theorem resent_goLive (now : Time) {c : Want} {cq : CidQueue} (h : Among P sw) (hc : P c)
    (hhas : sw.toFetch.has c.cid = true) (hleft : ∀ k, cq.has k = true ↔ k ≠ c.cid ∧
      sw.toFetch.has k = true) (helems : ∀ k ∈ cq.elems, k ∈ sw.toFetch.elems) :
    Resent P sw (goLive now { sw with toFetch := cq } c) := by
  refine ⟨fun w hw => ?_, fun k hk => h.queued k (helems k hk), fun k hk => ?_⟩
  · rw [isWanted_iff, isWanted_iff]
    show w ∈ sw.liveWants.insert c now ∨ cq.has w.cid = true ↔ _
    rw [AList.mem_insert, hleft]
    by_cases he : w = c
    · subst he; simp [hhas]
    · have hne : w.cid ≠ c.cid := fun h => he (hw c hc h.symm).symm
      simp [he, hne]
  · rcases (AList.mem_insert _).mp hk with rfl | hk
    · exact hc
    · exact h.live k hk

theorem resent_nextWants (now : Time) : ∀ (n : Nat) {sw : SessionWants}, Among P sw →
    Resent P sw (sw.nextWants now n).1
  | 0, sw, h => ⟨fun w _ => Iff.rfl, h⟩
  | n + 1, sw, h => by
      rw [nextWants]
      split
      · exact ⟨fun w _ => Iff.rfl, h⟩
      · rename_i hlen
        have hp := CidQueue.popped_pop hlen
        have h1 : Resent P sw _ :=
          resent_goLive now h (h.queued _ hp.mem) hp.has hp.left hp.elems
        exact h1.trans (resent_nextWants now n h1.among)

theorem resent_getNextWants (now : Time) (h : Among P sw) : Resent P sw (sw.getNextWants now).1 :=
  resent_nextWants now _ h

theorem resent_wantsSent (now : Time) : ∀ (ks : List Want) {sw : SessionWants}, Among P sw →
    (∀ k ∈ ks, P k) → Resent P sw (sw.wantsSent now ks)
  | [], sw, h, _ => ⟨fun w _ => Iff.rfl, h⟩
  | c :: ks, sw, h, hks => by
      have h1 : Resent P sw (sw.wantSent now c) := by
        rw [wantSent]
        split
        · rename_i hc
          exact resent_goLive now h (hks c List.mem_cons_self) hc.2 (fun k => CidQueue.has_remove)
            fun k hk => hk
        · exact ⟨fun w _ => Iff.rfl, h⟩
      exact h1.trans (resent_wantsSent now ks h1.among fun k hk =>
        hks k (List.mem_cons_of_mem c hk))

theorem resent_prepareBroadcast (now : Time) (h : Among P sw) :
    Resent P sw (sw.prepareBroadcast now).1 := by
  have hloop : ∀ (order : List Want) (sw : SessionWants) (live : List Want), Among P sw →
      Resent P sw (prepareLoop now sw live order).1 := by
    intro order
    induction order with
    | nil => exact fun sw live h => ⟨fun w _ => Iff.rfl, h⟩
    | cons c order ih =>
        intro sw live h
        rw [prepareLoop]
        split
        · rename_i hc
          set sw₁ : SessionWants := { sw with liveWants := sw.liveWants.insert c now } with hsw₁
          have hmem : ∀ k, k ∈ sw₁.liveWants ↔ k ∈ sw.liveWants := fun k => by
            rw [hsw₁, AList.mem_insert]
            exact ⟨fun h => h.elim (fun h => h ▸ hc) id, .inr⟩
          have h1 : Resent P sw sw₁ := by
            refine ⟨fun w _ => ?_, h.queued, fun k hk => h.live k ((hmem k).mp hk)⟩
            rw [isWanted_iff, isWanted_iff, hmem]
          dsimp only
          split
          · exact h1
          · exact h1.trans (ih sw₁ _ h1.among)
        · exact ih sw live h
  exact hloop _ sw [] h

/-! ### Cancelling -/

theorem has_foldl_remove (c : Cid) : ∀ (keys : List Cid) (cq : CidQueue),
    (keys.foldl CidQueue.remove cq).has c = true ↔ cq.has c = true ∧ c ∉ keys
  | [], cq => by simp
  | k :: keys, cq => by
      rw [List.foldl_cons, has_foldl_remove c keys, CidQueue.has_remove, List.mem_cons, not_or]
      exact ⟨fun h => ⟨h.1.2, h.1.1, h.2⟩, fun h => ⟨⟨h.2.1, h.1⟩, h.2.2⟩⟩

theorem isWanted_cancelPending (keys : List Cid) : (sw.cancelPending keys).isWanted w = true ↔
    w ∈ sw.liveWants ∨ (sw.toFetch.has w.cid = true ∧ w.cid ∉ keys) := by
  rw [isWanted_iff]
  exact or_congr_right (has_foldl_remove w.cid keys sw.toFetch)

theorem Among.cancelPending (h : Among P sw) (keys : List Cid) :
    Among P (sw.cancelPending keys) := by
  have helems : ∀ (l : List Cid) (cq : CidQueue),
      (l.foldl CidQueue.remove cq).elems = cq.elems := by
    intro l
    induction l with
    | nil => exact fun cq => rfl
    | cons a l ih => exact fun cq => ih (cq.remove a)
  exact ⟨fun k hk => h.queued k (helems keys sw.toFetch ▸ hk), h.live⟩

/-! ### Broadcasting

What is broadcast comes from the queue, from the live wants, or from the order in
which wants became live; that one is cleaned only now and then, and keeps wants
that are no longer live. -/

/-- All the wants that may come to be broadcast are of a kind. -/
structure Within (P : Want → Prop) (sw : SessionWants) : Prop extends Among P sw where
  order : ∀ k ∈ sw.liveWantsOrder, P k

theorem within_new (n : Nat) : Within P (new n) :=
  ⟨among_new n, fun _ hk => absurd hk List.not_mem_nil⟩

theorem Within.imp {R : Want → Prop} (h : Within P sw) (hPR : ∀ k, P k → R k) : Within R sw :=
  ⟨h.toAmong.imp hPR, fun k hk => hPR k (h.order k hk)⟩

/-- The first wants: all come from the queue. -/
theorem Within.nextWants (now : Time) : ∀ (n : Nat) {sw : SessionWants}, Within P sw →
    Within P (sw.nextWants now n).1 ∧ ∀ k ∈ (sw.nextWants now n).2, P k
  | 0, sw, h => ⟨h, fun _ hk => absurd hk List.not_mem_nil⟩
  | n + 1, sw, h => by
      rw [SessionWants.nextWants]
      split
      · exact ⟨h, fun _ hk => absurd hk List.not_mem_nil⟩
      · rename_i hlen
        have hp := CidQueue.popped_pop hlen
        have hc := h.queued _ hp.mem
        have h1 := resent_goLive now h.toAmong hc hp.has hp.left hp.elems
        have hlive : Within P (goLive now { sw with toFetch := sw.toFetch.pop.2 }
            sw.toFetch.pop.1) :=
          ⟨h1.among, List.forall_mem_append.mpr ⟨h.order, List.forall_mem_singleton.mpr hc⟩⟩
        obtain ⟨hw, hl⟩ := Within.nextWants now n hlive
        exact ⟨hw, List.forall_mem_cons.mpr ⟨hc, hl⟩⟩

theorem Within.wantsSent (h : Within P sw) (now : Time) {ks : List Want} (hks : ∀ k ∈ ks, P k) :
    Within P (sw.wantsSent now ks) := by
  refine ⟨(resent_wantsSent now ks h.toAmong hks).among, ?_⟩
  have hloop : ∀ (l : List Want) (sw : SessionWants), (∀ k ∈ l, P k) →
      (∀ k ∈ sw.liveWantsOrder, P k) → ∀ k ∈ (l.foldl (wantSent now) sw).liveWantsOrder, P k := by
    intro l
    induction l with
    | nil => exact fun sw _ h => h
    | cons c l ih =>
        intro sw hl h
        obtain ⟨hc, hl⟩ := List.forall_mem_cons.mp hl
        refine ih _ hl ?_
        rw [wantSent]
        split
        · exact List.forall_mem_append.mpr ⟨h, List.forall_mem_singleton.mpr hc⟩
        · exact h
  exact hloop ks sw hks h.order

theorem Within.blocksReceived (h : Within P sw) (now : Time) (ks : List Want) :
    Within P (sw.blocksReceived now ks).sw := by
  refine ⟨(received_blocksReceived now sw ks).among P h.toAmong, ?_⟩
  have hloop : ∀ (l : List Want) (s : Receipt),
      (l.foldl (Receipt.block now) s).sw.liveWantsOrder = s.sw.liveWantsOrder := by
    intro l
    induction l with
    | nil => exact fun s => rfl
    | cons c l ih =>
        intro s
        refine (ih _).trans ?_
        rw [Receipt.block]
        split <;> rfl
  intro k hk
  rw [SessionWants.blocksReceived] at hk
  split at hk
  · exact h.order k hk
  · refine h.order k ((hloop ks ⟨sw, [], 0⟩) ▸ ?_)
    revert hk
    show k ∈ (SessionWants.cleaned _).liveWantsOrder → _
    rw [cleaned]
    split
    · exact fun hk => (List.mem_filter.mp hk).1
    · exact id

/-- An idle tick: what is broadcast has become live once. -/
theorem Within.prepareBroadcast (h : Within P sw) (now : Time) :
    Within P (sw.prepareBroadcast now).1 ∧ ∀ k ∈ (sw.prepareBroadcast now).2, P k := by
  have hloop : ∀ (order : List Want) (sw : SessionWants) (live : List Want),
      (∀ k ∈ order, P k) → (∀ k ∈ live, P k) →
        (prepareLoop now sw live order).1.liveWantsOrder = sw.liveWantsOrder ∧
          ∀ k ∈ (prepareLoop now sw live order).2, P k := by
    intro order
    induction order with
    | nil => exact fun sw live _ hl => ⟨rfl, hl⟩
    | cons c order ih =>
        intro sw live ho hl
        obtain ⟨hc, ho⟩ := List.forall_mem_cons.mp ho
        have hl' : ∀ k ∈ live ++ [c], P k :=
          List.forall_mem_append.mpr ⟨hl, List.forall_mem_singleton.mpr hc⟩
        rw [prepareLoop]
        split
        · dsimp only
          split
          · exact ⟨rfl, hl'⟩
          · exact ih _ _ ho hl'
        · exact ih sw live ho hl
  obtain ⟨horder, hlive⟩ := hloop sw.liveWantsOrder sw [] h.order
    fun _ hk => absurd hk List.not_mem_nil
  have hin : Within P _ :=
    ⟨(resent_prepareBroadcast now h.toAmong).among, fun k hk => h.order k (horder ▸ hk)⟩
  exact ⟨hin, hlive⟩

/-- The want of a periodic search has become live once, if there is one. -/
theorem Within.randomLiveWant (h : Within P sw) (i : Nat)
    (hdef : (sw.randomLiveWant i).cid.defined = true) : P (sw.randomLiveWant i) := by
  rw [SessionWants.randomLiveWant] at hdef ⊢
  cases hk : sw.liveWantsOrder[i % sw.liveWantsOrder.length]? with
  | none =>
      rw [hk] at hdef
      cases hdef
  | some k => exact h.order k (List.mem_of_getElem? hk)

end SessionWants

end BitswapAuth
