/-
# `BitswapAuth.Session.Turn` — one `onChange`, from the batch to the result

The passes put together: `turn_onChange` describes the state after one
`onChange` in terms of the batch, the block presence manager and the state
before, with nothing left of the loops.  A want that stays tracked starts from
the view it had, or from a fresh one; the peers that join, and those that speak
of the want, are looked up; those that leave are forgotten; and if nothing is
then outstanding the want is sent to its best peer.
-/
import BitswapAuth.Session.Passes

namespace BitswapAuth

open Lib

namespace SessionWantSender

variable {bpm : BlockPresenceManager} {changes : List Change} {sws : SessionWantSender}

/-! ## The peers a batch leaves in the session -/

/-- The peer is in the session once the batch's words on availability are taken. -/
def MemberAfter (sws : SessionWantSender) (changes : List Change) (q : PeerID) : Prop :=
  wordOn changes q = some true ∨ (wordOn changes q = none ∧ q ∈ sws.spm.peers)

/-- The batch brings the peer into the session. -/
def Joining (sws : SessionWantSender) (changes : List Change) (q : PeerID) : Prop :=
  wordOn changes q = some true ∧ q ∉ sws.spm.peers

/-- The batch takes the peer out of the session. -/
def Leaving (sws : SessionWantSender) (changes : List Change) (q : PeerID) : Prop :=
  wordOn changes q = some false ∧ q ∈ sws.spm.peers

theorem memberAfter_iff {q : PeerID} : sws.MemberAfter changes q ↔
    sws.Joining changes q ∨ (q ∈ sws.spm.peers ∧ ¬ sws.Leaving changes q) := by
  rw [MemberAfter, Joining, Leaving]
  cases wordOn changes q with
  | none => simp
  | some b =>
      by_cases hq : q ∈ sws.spm.peers
      · cases b <;> simp [hq]
      · cases b <;> simp [hq]

/-- No word is on the empty peer ID. -/
theorem wordOn_empty (changes : List Change) : wordOn changes .empty = none := by
  have h : ∀ l : List (PeerID × Bool), (∀ e ∈ l, e.1 ≠ .empty) → lastWord .empty l = none := by
    intro l
    induction l with
    | nil => exact fun _ => rfl
    | cons e l ih =>
        intro hl
        have he := hl e List.mem_cons_self
        simp [lastWord, ih fun e' he' => hl e' (List.mem_cons_of_mem e he'), he]
  refine h _ fun e he => ?_
  obtain ⟨ch, -, hw⟩ := List.mem_flatMap.mp he
  rcases List.mem_append.mp hw with hw | hw
  · unfold Change.hints at hw
    split at hw
    · rename_i hs
      rw [List.mem_singleton.mp hw]
      exact hs.1
    · exact absurd hw (by simp)
  · unfold Change.signals at hw
    split at hw
    · rename_i hs
      rw [List.mem_singleton.mp hw]
      exact hs
    · exact absurd hw (by simp)

/-! ## The result of a turn -/

/-- The peers looked up for a want: those that join, and those that speak of it. -/
def LooksUp (sws : SessionWantSender) (changes : List Change) (w : Want) (q : PeerID) : Prop :=
  sws.Joining changes q ∨ Denies (updatesOf changes) w q ∨ Offers (updatesOf changes) w q

/-- The peers that are no longer waited for: those that leave, and those that
answer the want-block with DONT_HAVE. -/
def Releases (sws : SessionWantSender) (changes : List Change) (w : Want) (q : PeerID) : Prop :=
  sws.Leaving changes q ∨
    (Denies (updatesOf changes) w q ∧ sws.haveSentWantBlockTo q w = true)

/-- The view a tracked want starts the turn with: the one it had, or a fresh one. -/
def Starts (bpm : BlockPresenceManager) (sws : SessionWantSender) (changes : List Change) (w : Want)
    (v : View) : Prop :=
  (Kept changes w ∧ sws.view w = some v) ∨
    (v = .fresh bpm w.cid sws.spm.peers ∧ ¬ (Kept changes w ∧ w ∈ sws.wants))

/-- The want is looked at when exhausted wants are looked for: a DONT_HAVE names
it, or a peer leaves. -/
def Checked (sws : SessionWantSender) (changes : List Change) (w : Want) : Prop :=
  (∃ q, Denies (updatesOf changes) w q) ∨ ∃ q, sws.Leaving changes q

/-- What a want has become of after a turn. -/
structure Outcome (bpm : BlockPresenceManager) (changes : List Change)
    (sws : SessionWantSender) (calls : List Effect) (w : Want) (wi : WantInfo) (v₀ v : View) :
    Prop where
  starts : sws.Starts bpm changes w v₀
  became : View.Became bpm w.cid (sws.LooksUp changes w) (sws.Leaving changes)
    (sws.Releases changes w) v₀ v
  presence : ∀ q, wi.blockPresence.lookup q = v.presence q
  waits : v.sentTo ≠ .empty → wi.sentTo = v.sentTo
  asks : v.sentTo = .empty → (∃ q, sws.MemberAfter changes q) → wi.sentTo = wi.bestPeer
  idle : v.sentTo = .empty → (¬ ∃ q, sws.MemberAfter changes q) → wi.sentTo = .empty
  exhausted : (∃ q, sws.MemberAfter changes q) → (wi.exhausted = true ↔ v.exhausted = true ∨
    (sws.Checked changes w ∧
      ∀ q, sws.MemberAfter changes q → bpm.peerDoesNotHaveBlock q w.cid = true))
  reported : wi.exhausted = true → v.exhausted = true ∨ w ∈ reportsOf calls

/-- The state after a turn, and the calls made in it. -/
structure Turn (bpm : BlockPresenceManager) (changes : List Change)
    (sws sws' : SessionWantSender) (calls : List Effect) : Prop where
  session : sws'.sessionID = sws.sessionID
  peers : ∀ q, q ∈ sws'.spm.peers ↔ sws.MemberAfter changes q
  tracked : ∀ w, w ∈ sws'.wants ↔
    TrackedAfter w (w ∈ sws.wants) changes ∧ w ∉ blocksOf changes
  registers : ∀ upd ∈ updatesOf changes, upd.signalsAvailable = true →
    .registerSession upd.sender ∈ calls
  want : ∀ w wi, sws'.wants.lookup w = some wi →
    ∃ v₀ v, Outcome bpm changes sws calls w wi v₀ v

/-! ## The turn -/

theorem lookup_availability (s : Collected) (hg : Gathers changes ⟨sws, ∅, [], [], []⟩ s)
    (q : PeerID) : s.availability.lookup q = wordOn changes q := by
  rw [hg.availability, lookup_foldl_insert]
  simp [wordOn]

theorem view_collect_ne_none (bpm : BlockPresenceManager) (w : Want) :
    (sws.collect bpm changes).sws.view w ≠ none ↔ TrackedAfter w (w ∈ sws.wants) changes := by
  have h := @view_foldl_change bpm w sws.spm.peers changes ⟨sws, ∅, [], [], []⟩ rfl
  rw [Option.ne_none_iff_exists']
  constructor
  · rintro ⟨v, hv⟩
    rcases (h v).mp hv with ⟨hk, hv⟩ | ⟨-, -, ht⟩
    · have hw : w ∈ sws.wants := by
        by_contra hw
        exact absurd ((view_eq_none.mpr hw).symm.trans hv) (by simp)
      rw [eq_true hw]
      exact trackedAfter_of_kept hk
    · exact ht
  · intro ht
    by_cases hk : Kept changes w ∧ w ∈ sws.wants
    · obtain ⟨v, hv⟩ := Option.ne_none_iff_exists'.mp fun hn => view_eq_none.mp hn hk.2
      exact ⟨v, (h v).mpr (.inl ⟨hk.1, hv⟩)⟩
    · exact ⟨_, (h _).mpr (.inr ⟨rfl, hk, ht⟩)⟩

/-- The state when exhausted wants are looked for, with the DONT_HAVEs and the peers that have
left. -/
structure Ready (bpm : BlockPresenceManager) (changes : List Change)
    (sws sws' : SessionWantSender) (dontHaves : List Want) (newlyUnavailable : List PeerID) :
    Prop where
  session : sws'.sessionID = sws.sessionID
  peers : ∀ q, q ∈ sws'.spm.peers ↔ sws.MemberAfter changes q
  tracked : ∀ w, sws'.view w ≠ none ↔
    TrackedAfter w (w ∈ sws.wants) changes ∧ w ∉ blocksOf changes
  want : ∀ w v, sws'.view w = some v → ∃ v₀, sws.Starts bpm changes w v₀ ∧
    View.Became bpm w.cid (sws.LooksUp changes w) (sws.Leaving changes) (sws.Releases changes w)
      v₀ v
  left : newlyUnavailable ≠ [] ↔ ∃ q, sws.Leaving changes q
  denied : ∀ w, w ∈ dontHaves ↔ w ∉ blocksOf changes ∧ ∃ q, Denies (updatesOf changes) w q

/-- The first three passes, as `settle` makes them. -/
theorem ready_settle (bpm : BlockPresenceManager) (changes : List Change)
    (sws : SessionWantSender) : ∃ sws₁ dontHaves newlyUnavailable,
      Ready bpm changes sws sws₁ dontHaves newlyUnavailable ∧
      (sws.settle bpm changes).sws =
        (sws₁.checkForExhaustedWants bpm dontHaves newlyUnavailable).1 ∧
      ∃ xs ys, (sws.settle bpm changes).calls =
          xs ++ (sws₁.checkForExhaustedWants bpm dontHaves newlyUnavailable).2 ++ ys ∧
        reportsOf xs = [] ∧ reportsOf ys = [] ∧
        ∀ upd ∈ updatesOf changes, upd.signalsAvailable = true →
          .registerSession upd.sender ∈ xs := by
  set c := sws.collect bpm changes with hc
  have hg : Gathers changes ⟨sws, ∅, [], [], []⟩ c := gathers_foldl_change changes _
  have hf : Frame sws c.sws := .of_aside (aside_collect changes sws)
  have hcv := fun w => @view_foldl_change bpm w sws.spm.peers changes ⟨sws, ∅, [], [], []⟩ rfl
  -- the peers that come and go
  set av := c.sws.processAvailability bpm c.availability with hav
  have hsh : Shifted bpm c.availability.pairs ⟨c.sws, [], []⟩ av := shifted_processAvailability _ _
  have hj : ∀ q, c.sws.Joins c.availability.pairs q ↔ sws.Joining changes q := fun q => by
    rw [Joins, Joining]
    rw [GoMap.mem_pairs, lookup_availability c hg, hf.peers]
  have hl : ∀ q, c.sws.Leaves c.availability.pairs q ↔ sws.Leaving changes q := fun q => by
    rw [Leaves, Leaving]
    rw [GoMap.mem_pairs, lookup_availability c hg, hf.peers]
  -- the messages
  set up := av.sws.processUpdates bpm c.updates with hup
  have han : Answered bpm (updatesOf changes) av.sws up := by
    rw [hup, hg.updates, List.nil_append]
    exact answered_processUpdates _ _
  have hsent : ∀ p w, av.sws.haveSentWantBlockTo p w = sws.haveSentWantBlockTo p w := by
    intro p w
    unfold haveSentWantBlockTo
    rw [hsh.swbt, hf.swbt]
  refine ⟨up.1, up.2.1, av.newlyUnavailable, ⟨?_, fun q => ?_, fun w => ?_,
    fun w v hv => ?_, ?_, han.dontHaves⟩, rfl, _, _, rfl, ?_, ?_, fun upd hupd ha => ?_⟩
  · exact han.frame.session.trans (hsh.session.trans hf.session)
  · rw [han.frame.peers, hsh.peers, memberAfter_iff, hj, hl]
    show _ ∨ q ∈ c.sws.spm.peers ∧ _ ↔ _
    rw [hf.peers]
  · by_cases hw : w ∈ blocksOf changes
    · simp [han.done w hw, hw]
    · rw [ne_eq, rel_none_iff (han.view w hw), rel_none_iff (hsh.view w),
        ← view_collect_ne_none bpm w]
      simp [hw, hc]
  · have hw : w ∉ blocksOf changes := fun hw => by
      rw [han.done w hw] at hv
      cases hv
    obtain ⟨v₁, hv₁, hb₂⟩ := rel_some_right (hv ▸ han.view w hw)
    obtain ⟨v₀, hv₀, hb₁⟩ := rel_some_right (hv₁ ▸ hsh.view w)
    refine ⟨v₀, ?_, ?_⟩
    · rcases (hcv w v₀).mp hv₀ with h | ⟨h, hk, -⟩
      · exact .inl h
      · exact .inr ⟨h, hk⟩
    · refine (hb₁.trans hb₂ fun _ _ h => h).congr (fun q => ?_) (fun q => ?_) (fun q => ?_)
      · exact or_congr_left (hj q)
      · simpa using hl q
      · exact or_congr (hl q) (by rw [hsent])
  · rw [ne_eq, List.eq_nil_iff_forall_not_mem, not_forall]
    refine exists_congr fun q => ?_
    rw [not_not, hsh.unavailable, hl]
    simp
  · rw [reportsOf_append]
    simp [reportsOf]
  · split <;> rfl
  · have hr : upd.sender ∈ c.registered := by
      rw [hg.registered]
      exact List.mem_append_right _ (List.mem_map.mpr ⟨upd, List.mem_filter.mpr ⟨hupd, ha⟩, rfl⟩)
    exact List.mem_append_left _ (List.mem_map.mpr ⟨upd.sender, hr, rfl⟩)

/-- What the fourth pass looks for, if the session has peers. -/
theorem Ready.marked {sws' : SessionWantSender} {dontHaves : List Want}
    {newlyUnavailable : List PeerID} (h : Ready bpm changes sws sws' dontHaves newlyUnavailable)
    (hmem : ∃ q, sws.MemberAfter changes q) {w : Want} (hw : sws'.view w ≠ none) :
    Marked bpm dontHaves newlyUnavailable sws' w ↔ sws.Checked changes w ∧
      ∀ q, sws.MemberAfter changes q → bpm.peerDoesNotHaveBlock q w.cid = true := by
  have hhas : sws'.spm.hasPeers = true := by
    rw [SessionPeerManager.hasPeers_eq_true]
    exact hmem.imp fun q hq => (h.peers q).mpr hq
  have hne : sws'.spm.peers.keys ≠ [] :=
    hmem.elim fun q hq => List.ne_nil_of_mem ((h.peers q).mpr hq)
  refine and_congr (or_congr ?_ h.left) ?_
  · rw [h.denied]
    exact and_iff_right ((h.tracked w).mp hw).2
  · rw [hhas, BlockPresenceManager.allDontHave_eq_true hne]
    simp only [Bool.true_eq_false, and_false, or_false]
    exact forall_congr' fun q => imp_congr_left (h.peers q)

/-- The state before the sending of wants. -/
structure Settles (bpm : BlockPresenceManager) (changes : List Change)
    (sws sws' : SessionWantSender) (calls : List Effect) : Prop where
  session : sws'.sessionID = sws.sessionID
  peers : ∀ q, q ∈ sws'.spm.peers ↔ sws.MemberAfter changes q
  tracked : ∀ w, w ∈ sws'.wants ↔
    TrackedAfter w (w ∈ sws.wants) changes ∧ w ∉ blocksOf changes
  registers : ∀ upd ∈ updatesOf changes, upd.signalsAvailable = true →
    .registerSession upd.sender ∈ calls
  want : ∀ w v', sws'.view w = some v' → ∃ v₀ v, sws.Starts bpm changes w v₀ ∧
    View.Became bpm w.cid (sws.LooksUp changes w) (sws.Leaving changes) (sws.Releases changes w)
      v₀ v ∧ v'.presence = v.presence ∧ v'.sentTo = v.sentTo ∧
    ((∃ q, sws.MemberAfter changes q) → (v'.exhausted = true ↔ v.exhausted = true ∨
      (sws.Checked changes w ∧
        ∀ q, sws.MemberAfter changes q → bpm.peerDoesNotHaveBlock q w.cid = true))) ∧
    (v'.exhausted = true → v.exhausted = true ∨ w ∈ reportsOf calls)

theorem settles_settle (bpm : BlockPresenceManager) (changes : List Change)
    (sws : SessionWantSender) :
    Settles bpm changes sws (sws.settle bpm changes).sws (sws.settle bpm changes).calls := by
  obtain ⟨sws₁, dontHaves, newlyUnavailable, hr, hsws, xs, ys, hcalls, hxs, hys, hreg⟩ :=
    ready_settle bpm changes sws
  rw [hsws, hcalls]
  have hfex : Frame sws₁ (sws₁.checkForExhaustedWants bpm dontHaves newlyUnavailable).1 :=
    .of_aside (aside_checkForExhaustedWants ..)
  have hju := fun w => @judged_checkForExhaustedWants bpm dontHaves newlyUnavailable sws₁ w
  refine ⟨hfex.session.trans hr.session, fun q => ?_, fun w => ?_, fun upd hupd ha => ?_,
    fun w v' hv' => ?_⟩
  · rw [hfex.peers, hr.peers]
  · rw [← hr.tracked, ne_eq, ← rel_none_iff (hju w), view_eq_none, not_not]
  · exact List.mem_append_left _ (List.mem_append_left _ (hreg upd hupd ha))
  · obtain ⟨v, hv, hjv⟩ := rel_some_right (hv' ▸ hju w)
    have htracked : sws₁.view w ≠ none := by
      rw [hv]
      exact Option.some_ne_none v
    obtain ⟨v₀, hstart, hbecame⟩ := hr.want w v hv
    refine ⟨v₀, v, hstart, hbecame, hjv.presence, hjv.sentTo, fun hmem => ?_, fun he => ?_⟩
    · rw [hjv.exhausted, hr.marked hmem htracked]
    · cases hx : v.exhausted with
      | true => exact .inl rfl
      | false =>
          refine .inr ?_
          have hm : Marked bpm dontHaves newlyUnavailable sws₁ w :=
            (hjv.exhausted.mp he).resolve_left (by rw [hx]; decide)
          rw [reportsOf_append, reportsOf_append]
          refine List.mem_append_left _ (List.mem_append_right _ ?_)
          exact (mem_reportsOf_checkForExhaustedWants _ _ _ w).mpr ⟨⟨v, hv, hx⟩, hm⟩

theorem turn_onChange (bpm : BlockPresenceManager) (changes : List Change)
    (sws : SessionWantSender) :
    Turn bpm changes sws (sws.onChange bpm changes).1 (sws.onChange bpm changes).2 := by
  have hs := settles_settle bpm changes sws
  set s := sws.settle bpm changes with hset
  have hhas : s.sws.spm.hasPeers = true ↔ ∃ q, sws.MemberAfter changes q := by
    rw [SessionPeerManager.hasPeers_eq_true]
    exact exists_congr hs.peers
  rcases onChange_cases bpm changes sws with ⟨hpeers, sws', sent, hsend, hturn⟩ | ⟨hpeers, hturn⟩
  · have hmem := hhas.mp hpeers
    have ho := sentOut_sendNextWants s.newlyAvailable s.sws
    rw [hsend] at ho
    rw [hturn]
    refine ⟨ho.session.trans hs.session, fun q => ?_, fun w => ?_,
      fun upd hupd ha => List.mem_append_left _ (hs.registers upd hupd ha), fun w wi hwi => ?_⟩
    · rw [ho.peers, hs.peers]
    · rw [← hs.tracked, GoMap.mem_iff_lookup, GoMap.mem_iff_lookup, ho.wants]
      simp
    · rw [ho.wants] at hwi
      obtain ⟨wi₁, hwi₁, rfl⟩ := Option.map_eq_some_iff.mp hwi
      obtain ⟨v₀, v, hstart, hb, hpres, hsent, hexh, hrep⟩ :=
        hs.want w wi₁.view (view_eq_some.mpr ⟨_, hwi₁, rfl⟩)
      have hsent : wi₁.sentTo = v.sentTo := hsent
      refine ⟨v₀, v, hstart, hb, congrFun hpres, fun h => ?_, fun h _ => ?_,
        fun _ h => absurd hmem h, hexh, fun he => ?_⟩
      · rw [← hsent] at h ⊢
        exact if_neg h
      · rw [← hsent] at h
        exact if_pos h
      · rw [reportsOf_append]
        exact (hrep he).imp_right (List.mem_append_left _)
  · have hmem : ¬ ∃ q, sws.MemberAfter changes q := fun h => by
      rw [hhas.mpr h] at hpeers
      cases hpeers
    rw [hturn]
    refine ⟨hs.session, hs.peers, hs.tracked, hs.registers, fun w wi hwi => ?_⟩
    obtain ⟨v₀, v, hstart, hb, hpres, hsent, hexh, hrep⟩ :=
      hs.want w wi.view (view_eq_some.mpr ⟨_, hwi, rfl⟩)
    have hsent : wi.sentTo = v.sentTo := hsent
    exact ⟨v₀, v, hstart, hb, congrFun hpres, fun _ => hsent, fun _ h => absurd h hmem,
      fun h _ => hsent.trans h, hexh, hrep⟩

end SessionWantSender

end BitswapAuth
