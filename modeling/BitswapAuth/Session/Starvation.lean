/-
# `BitswapAuth.Session.Starvation` — wants that nobody is asked for

While a session has peers, a tracked want should be on its way: sent to a peer,
or given up, and then the session has been told and broadcasts it.  A want is
given up when the sender looks for exhausted wants, and it looks only at wants
that a DONT_HAVE has just named, or at all of them when a peer has left; and it
asks the block presence manager, not the want, who has the block.

So a want can fall between.  The presence manager goes by CID, so a want with a
new auth string may find that all peers are already known not to have its
block: there is no one to send it to, no DONT_HAVE names it, and it is neither
sent nor given up.  And what the want has noted of a peer may be older than
what the presence manager has.  `Noticed` says that neither happens, and
`always_noneStarves_iff` that this is all there is to it.
-/
import BitswapAuth.Session.Candidates

namespace BitswapAuth

open Lib

namespace SessionWantSender

variable {sws : SessionWantSender} {b : Batch}

/-! ## What a batch leaves of a want -/

/-- The want goes on waiting for the peer it was sent to. -/
def Waits (sws : SessionWantSender) (changes : List Change) (w : Want) : Prop :=
  Kept changes w ∧ ∃ wi, sws.wants.lookup w = some wi ∧ wi.sentTo ≠ .empty ∧
    ¬ sws.Releases changes w wi.sentTo

/-- The want was given up before. -/
def GivenUp (sws : SessionWantSender) (changes : List Change) (w : Want) : Prop :=
  Kept changes w ∧ ∃ wi, sws.wants.lookup w = some wi ∧ wi.exhausted = true

/-- What the want is to have down for a peer: what the presence manager has, for a
peer that is looked up, and else what it started with. -/
def Notes (sws : SessionWantSender) (b : Batch) (w : Want) (q : PeerID) (bp : BlockPresence) :
    Prop :=
  (sws.LooksUp b.changes w q ∧ bp = b.bpm.presenceOf q w.cid) ∨
    (¬ sws.LooksUp b.changes w q ∧ ¬ sws.Leaving b.changes q ∧
      ∃ v, sws.Starts b.bpm b.changes w v ∧ v.presence q = some bp)

/-- If the session has peers, and a want that is neither waited for nor given up
has every peer it knows down for DONT_HAVE, then it is looked at, and the
presence manager has the same of every peer of the session. -/
def Noticed (sws : SessionWantSender) (b : Batch) : Prop :=
  (∃ q, sws.MemberAfter b.changes q) →
    ∀ w, TrackedAfter w (w ∈ sws.wants) b.changes → w ∉ blocksOf b.changes →
      ¬ sws.Waits b.changes w → ¬ sws.GivenUp b.changes w →
      (∀ q bp, sws.Notes b w q bp → bp = .BPDontHave) →
      sws.Checked b.changes w ∧
        ∀ q, sws.MemberAfter b.changes q → b.bpm.peerDoesNotHaveBlock q w.cid = true

section Outcome

variable {calls : List Effect} {w : Want} {wi : WantInfo} {v₀ v : View}

theorem Starts.unique {v₁ : View} (h : sws.Starts b.bpm b.changes w v₀)
    (h₁ : sws.Starts b.bpm b.changes w v₁) : v₀ = v₁ := by
  have hmem : ∀ {v}, sws.view w = some v → w ∈ sws.wants := fun hv => by
    by_contra hw
    exact absurd ((view_eq_none.mpr hw).symm.trans hv) (by simp)
  rcases h with ⟨hk, hv⟩ | ⟨rfl, hn⟩ <;> rcases h₁ with ⟨hk₁, hv₁⟩ | ⟨rfl, hn₁⟩
  · exact Option.some.inj (hv.symm.trans hv₁)
  · exact absurd ⟨hk, hmem hv⟩ hn₁
  · exact absurd ⟨hk₁, hmem hv₁⟩ hn
  · rfl

theorem Starts.exhausted_iff (h : sws.Starts b.bpm b.changes w v₀) :
    v₀.exhausted = true ↔ sws.GivenUp b.changes w := by
  constructor
  · intro he
    rcases h with ⟨hk, hv₀⟩ | ⟨rfl, -⟩
    · obtain ⟨wi₀, hwi₀, rfl⟩ := view_eq_some.mp hv₀
      exact ⟨hk, wi₀, hwi₀, he⟩
    · exact absurd he (by simp [View.fresh])
  · rintro ⟨hk, wi₀, hwi₀, he⟩
    obtain rfl := h.unique (.inl ⟨hk, view_eq_some.mpr ⟨wi₀, hwi₀, rfl⟩⟩)
    exact he

theorem Outcome.notes (ho : Outcome b.bpm b.changes sws calls w wi v₀ v) {q : PeerID}
    {bp : BlockPresence} : wi.blockPresence.lookup q = some bp ↔ sws.Notes b w q bp := by
  rw [ho.presence]
  by_cases hs : sws.LooksUp b.changes w q
  · rw [ho.became.seen q hs]
    simp [Notes, hs, eq_comm]
  · by_cases hl : sws.Leaving b.changes q
    · rw [ho.became.gone q hl hs]
      simp [Notes, hs, hl]
    · rw [ho.became.same q hl hs]
      refine ⟨fun h => .inr ⟨hs, hl, v₀, ho.starts, h⟩, ?_⟩
      rintro (⟨hs', -⟩ | ⟨-, -, v₁, hv₁, h⟩)
      · exact absurd hs' hs
      · rwa [ho.starts.unique hv₁]

/-- The want has a peer it waits for before anything is sent, just when it goes on
waiting. -/
theorem Outcome.waits_iff (ho : Outcome b.bpm b.changes sws calls w wi v₀ v) :
    v.sentTo ≠ .empty ↔ sws.Waits b.changes w := by
  constructor
  · intro hv
    have hr : ¬ sws.Releases b.changes w v₀.sentTo := fun hr => hv (ho.became.unsent hr)
    rw [ho.became.waits hr] at hv
    rcases ho.starts with ⟨hk, hv₀⟩ | ⟨rfl, -⟩
    · obtain ⟨wi₀, hwi₀, rfl⟩ := view_eq_some.mp hv₀
      exact ⟨hk, wi₀, hwi₀, hv, hr⟩
    · exact absurd rfl hv
  · rintro ⟨hk, wi₀, hwi₀, hne, hr⟩
    obtain rfl := ho.starts.unique (.inl ⟨hk, view_eq_some.mpr ⟨wi₀, hwi₀, rfl⟩⟩)
    rw [ho.became.waits hr]
    exact hne

/-- The want is down as given up before exhausted wants are looked for, just when
it was given up and no HAVE was found. -/
theorem Outcome.givenUp_iff (ho : Outcome b.bpm b.changes sws calls w wi v₀ v) :
    v.exhausted = true ↔ sws.GivenUp b.changes w ∧
      ∀ q, sws.LooksUp b.changes w q → b.bpm.presenceOf q w.cid ≠ .BPHave := by
  rw [ho.became.exhausted, ho.starts.exhausted_iff]

end Outcome

end SessionWantSender

/-! ## Runs of a sender -/

/-- A want sender with the wants it has reported as exhausted. -/
structure Sender where
  sws : SessionWantSender
  reported : List Want

namespace Sender

open SessionWantSender

/-- A new sender. -/
def start (sid : SessionID) (rng : Nat → Draw) : Sender := ⟨.new sid rng, []⟩

/-- One `onChange`. -/
def turn (s : Sender) (b : Batch) : Sender :=
  let r := s.sws.onChange b.bpm b.changes
  ⟨r.1, s.reported ++ reportsOf r.2⟩

/-- While the session has peers, every tracked want is waited for, or was given up
and reported. -/
def NoneStarves (s : Sender) : Prop :=
  s.sws.spm.hasPeers = true → ∀ w wi, s.sws.wants.lookup w = some wi →
    wi.sentTo ≠ .empty ∨ (wi.exhausted = true ∧ w ∈ s.reported)

/-- The empty ID is no peer, and a want that is given up was reported. -/
structure Inv (s : Sender) : Prop where
  peers : .empty ∉ s.sws.spm.peers
  known : ∀ w wi, s.sws.wants.lookup w = some wi → .empty ∉ wi.blockPresence
  reported : ∀ w wi, s.sws.wants.lookup w = some wi → wi.exhausted = true → w ∈ s.reported

variable {s : Sender}

theorem inv_start (sid : SessionID) (rng : Nat → Draw) : (start sid rng).Inv :=
  ⟨by simp [start, new, SessionPeerManager.new], fun w wi h => by simp [start, new] at h,
    fun w wi h => by simp [start, new] at h⟩

theorem not_looksUp_empty (sws : SessionWantSender) (changes : List Change) (w : Want) :
    ¬ sws.LooksUp changes w .empty := by
  have hno : ∀ upd ∈ updatesOf changes, upd.sender ≠ .empty := fun upd hupd => by
    simpa using (List.mem_filter.mp hupd).2
  rintro (⟨hw, -⟩ | ⟨upd, hupd, hs, -⟩ | ⟨upd, hupd, hs, -⟩)
  · rw [wordOn_empty] at hw
    exact absurd hw (by simp)
  · exact hno upd hupd hs
  · exact hno upd hupd hs

theorem inv_turn (h : s.Inv) (b : Batch) : (s.turn b).Inv := by
  have ht := turn_onChange b.bpm b.changes s.sws
  refine ⟨fun hp => ?_, fun w wi hwi hk => ?_, fun w wi hwi he => ?_⟩
  · rcases (ht.peers _).mp hp with hw | ⟨-, hp⟩
    · rw [wordOn_empty] at hw
      exact absurd hw (by simp)
    · exact h.peers hp
  · obtain ⟨v₀, v, ho⟩ := ht.want w wi hwi
    obtain ⟨bp, hbp⟩ := GoMap.mem_iff_lookup.mp hk
    rcases ho.notes.mp hbp with ⟨hs, -⟩ | ⟨-, -, v₁, hv₁, hbp⟩
    · exact not_looksUp_empty _ _ _ hs
    · rcases hv₁ with ⟨-, hv₁⟩ | ⟨rfl, -⟩
      · obtain ⟨wi₀, hwi₀, rfl⟩ := view_eq_some.mp hv₁
        exact h.known w wi₀ hwi₀ (GoMap.mem_of_lookup hbp)
      · simp [View.fresh, h.peers] at hbp
  · obtain ⟨v₀, v, ho⟩ := ht.want w wi hwi
    rcases ho.reported he with hv | hr
    · obtain ⟨⟨-, wi₀, hwi₀, he₀⟩, -⟩ := ho.givenUp_iff.mp hv
      exact List.mem_append_left _ (h.reported w wi₀ hwi₀ he₀)
    · exact List.mem_append_right _ hr

/-- If the batch lets no want fall between, none starves. -/
theorem noneStarves_turn (h : s.Inv) (b : Batch) (hok : s.sws.Noticed b) :
    (s.turn b).NoneStarves := by
  intro hp w wi hwi
  have hinv := inv_turn h b
  have ht := turn_onChange b.bpm b.changes s.sws
  obtain ⟨v₀, v, ho⟩ := ht.want w wi hwi
  have hm : ∃ q, s.sws.MemberAfter b.changes q :=
    (SessionPeerManager.hasPeers_eq_true.mp hp).imp fun q hq => (ht.peers q).mp hq
  by_cases hs : wi.sentTo = .empty
  · refine .inr ?_
    suffices he : wi.exhausted = true from ⟨he, hinv.reported w wi hwi he⟩
    have hv : v.sentTo = .empty := by
      by_contra hv
      exact hv ((ho.waits hv).symm.trans hs)
    -- there is no best peer, so every peer that is known is down for DONT_HAVE
    have hbest : wi.bestPeer = .empty := (ho.asks hv hm).symm.trans hs
    have hnone : ∀ q bp, s.sws.Notes b w q bp → bp = .BPDontHave := fun q bp hn =>
      wi.best.nobody hbest (hinv.known w wi hwi) q bp (ho.notes.mpr hn)
    rw [ho.exhausted hm, ho.givenUp_iff]
    by_cases hg : s.sws.GivenUp b.changes w
    · refine .inl ⟨hg, fun q hq hhave => ?_⟩
      have := hnone q .BPHave (.inl ⟨hq, hhave.symm⟩)
      exact absurd this (by simp)
    · obtain ⟨htr, hblk⟩ := (ht.tracked w).mp (GoMap.mem_of_lookup hwi)
      exact .inr (hok hm w htr hblk (fun hw => ho.waits_iff.mpr hw hv) hg hnone)
  · exact .inl hs

/-- A want that falls between starves. -/
theorem not_noneStarves_turn (b : Batch) (hno : ¬ s.sws.Noticed b) :
    ¬ (s.turn b).NoneStarves := by
  intro h
  refine hno fun hm w htr hblk hwaits hgiven hnone => ?_
  have ht := turn_onChange b.bpm b.changes s.sws
  obtain ⟨wi, hwi⟩ := GoMap.mem_iff_lookup.mp ((ht.tracked w).mpr ⟨htr, hblk⟩)
  obtain ⟨v₀, v, ho⟩ := ht.want w wi hwi
  have hp : (s.turn b).sws.spm.hasPeers = true :=
    SessionPeerManager.hasPeers_eq_true.mpr (hm.imp fun q hq => (ht.peers q).mpr hq)
  rcases h hp w wi hwi with hs | ⟨he, -⟩
  · have hv : v.sentTo = .empty := by
      by_contra hv
      exact hwaits (ho.waits_iff.mp hv)
    rw [ho.asks hv hm] at hs
    obtain ⟨bp, hbp, hnot, -⟩ := wi.best.named hs
    exact absurd (hnone _ bp (ho.notes.mp hbp)) hnot
  · exact ((ho.exhausted hm).mp he).resolve_left fun hv => hgiven (ho.givenUp_iff.mp hv).1

/-- **No tracked want starves**, in every state of a run, just when no batch of it
lets one fall between. -/
theorem always_noneStarves_iff (sid : SessionID) (rng : Nat → Draw) (batches : List Batch) :
    Always turn NoneStarves (start sid rng) batches ↔
      Meets turn (fun s b => s.sws.Noticed b) (start sid rng) batches := by
  refine always_iff_meets (I := fun s : Sender => s.Inv ∧ s.NoneStarves) (fun _ h => h.2)
    (fun s b h hok => ⟨inv_turn h.1 b, noneStarves_turn h.1 b hok⟩)
    (fun _ b _ hno => not_noneStarves_turn b hno) batches ⟨inv_start sid rng, fun hp => ?_⟩
  intro w wi h
  simp [start, new] at h

/-- A want for a block that the only peer has said, for another auth string, it
does not have: the want is not sent, and not given up. -/
theorem starved_by_other_auth :
    let w : Want := ⟨⟨[1]⟩, [65]⟩
    let w' : Want := ⟨⟨[1]⟩, [66]⟩
    let x : Want := ⟨⟨[2]⟩, []⟩
    let p : PeerID := ⟨[7]⟩
    let bpm := BlockPresenceManager.new.receiveFrom p [x] []
    let s := run turn (start 1 fun _ => .plain)
      [⟨bpm, [{ add := [w] }, { update := ⟨p, [], [x], []⟩ }]⟩,
        ⟨bpm.receiveFrom p [] [w], [{ update := ⟨p, [], [], [w]⟩ }]⟩,
        ⟨bpm.receiveFrom p [] [w], [{ add := [w'] }]⟩]
    s.sws.spm.hasPeers = true ∧ s.reported = [w] ∧
      (s.sws.wants.lookup w').map (fun wi => (wi.sentTo, wi.exhausted)) = some (.empty, false) ∧
      ¬ s.NoneStarves := by
  intro w w' x p bpm s
  have hp : s.sws.spm.hasPeers = true := by decide
  have hw : (s.sws.wants.lookup w').map (fun wi => (wi.sentTo, wi.exhausted)) =
      some (.empty, false) := by decide
  refine ⟨hp, by decide, hw, fun h => ?_⟩
  obtain ⟨wi, hwi, heq⟩ := Option.map_eq_some_iff.mp hw
  rcases h hp w' wi hwi with hs | ⟨he, -⟩
  · exact hs (congrArg Prod.fst heq)
  · exact absurd ((congrArg Prod.snd heq).symm.trans he) (by simp)

end Sender

end BitswapAuth
