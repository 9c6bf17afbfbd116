/-
# `BitswapAuth.Session.Candidates` — which peers a want may be sent to

A want should know, and be sent to, peers of the session only.  The sender
keeps to that for peers that join and leave, but it also looks up whoever sends
a HAVE or a DONT_HAVE, and by then the words of the batch on availability have
been taken.  A DONT_HAVE alone does not bring its sender into the session, and a
HAVE does not if the batch goes on to say that the peer is gone.  Such a peer
becomes known to the want, may become its best peer, and may be waited for; as
it is not in the session, nothing will ever end the waiting.

`always_onlyMembers_iff`: that is the only way.
-/
import BitswapAuth.Session.Turn

namespace BitswapAuth

open Lib

/-- A batch of changes, and what the block presence manager has when it is
processed. -/
structure Batch where
  bpm : BlockPresenceManager
  changes : List Change

namespace SessionWantSender

/-- One `onChange`. -/
def turn (sws : SessionWantSender) (b : Batch) : SessionWantSender :=
  (sws.onChange b.bpm b.changes).1

/-- Every peer that a tracked want knows, would be sent to or was sent to is in
the session. -/
def OnlyMembers (sws : SessionWantSender) : Prop :=
  ∀ w wi, sws.wants.lookup w = some wi → (∀ q ∈ wi.blockPresence, q ∈ sws.spm.peers) ∧
    (wi.bestPeer ≠ .empty → wi.bestPeer ∈ sws.spm.peers) ∧
    (wi.sentTo ≠ .empty → wi.sentTo ∈ sws.spm.peers)

/-- The want is tracked once the batch is through, and the peer speaks of it. -/
def Speaks (sws : SessionWantSender) (changes : List Change) (w : Want) (q : PeerID) : Prop :=
  TrackedAfter w (w ∈ sws.wants) changes ∧ w ∉ blocksOf changes ∧
    (Denies (updatesOf changes) w q ∨ Offers (updatesOf changes) w q)

/-- Whoever speaks of a want in the batch is a peer of the session once the words
of the batch on availability are taken. -/
def FromMembers (sws : SessionWantSender) (b : Batch) : Prop :=
  ∀ w q, sws.Speaks b.changes w q → sws.MemberAfter b.changes q

/-! ## Members with a presence of some kind -/

/-- The peers that wants know with a presence in `B`, and those they wait for, are
in the session. -/
structure Members (B : BlockPresence → Prop) (sws : SessionWantSender) : Prop where
  known : ∀ w wi, sws.wants.lookup w = some wi → ∀ q b, wi.blockPresence.lookup q = some b → B b →
    q ∈ sws.spm.peers
  sentTo : ∀ w wi, sws.wants.lookup w = some wi → wi.sentTo ≠ .empty → wi.sentTo ∈ sws.spm.peers

variable {B : BlockPresence → Prop} {sws : SessionWantSender}

theorem members_new (sid : SessionID) (rng : Nat → Draw) : Members B (new sid rng) :=
  ⟨fun w wi h => by simp [new] at h, fun w wi h => by simp [new] at h⟩

/-- The best peer is known with a presence other than DONT_HAVE. -/
theorem Members.bestPeer (hB : ∀ b, b ≠ .BPDontHave → B b) (h : Members B sws) {w : Want}
    {wi : WantInfo} (hwi : sws.wants.lookup w = some wi) (hne : wi.bestPeer ≠ .empty) :
    wi.bestPeer ∈ sws.spm.peers := by
  obtain ⟨bp, hbp, hnot, -⟩ := wi.best.named hne
  exact h.known w wi hwi _ bp hbp (hB bp hnot)

/-- A turn keeps to members if every peer that speaks of a want, and would be known
with a presence in `B`, is one. -/
theorem Members.turn (hB : ∀ b, b ≠ .BPDontHave → B b) (h : Members B sws) (b : Batch)
    (hok : ∀ w q, sws.Speaks b.changes w q → B (b.bpm.presenceOf q w.cid) →
      sws.MemberAfter b.changes q) : Members B (sws.turn b) := by
  have ht := turn_onChange b.bpm b.changes sws
  have hstay : ∀ q, q ∈ sws.spm.peers → ¬ sws.Leaving b.changes q → sws.MemberAfter b.changes q :=
    fun q hq hl => memberAfter_iff.mpr (.inr ⟨hq, hl⟩)
  have hknown : ∀ w wi, (sws.turn b).wants.lookup w = some wi → ∀ q bp,
      wi.blockPresence.lookup q = some bp → B bp → q ∈ (sws.turn b).spm.peers := by
    intro w wi hwi q bp hbp hBp
    obtain ⟨v₀, v, ho⟩ := ht.want w wi hwi
    obtain ⟨htr, hblk⟩ := (ht.tracked w).mp (GoMap.mem_of_lookup hwi)
    rw [show (sws.turn b).spm.peers = (sws.onChange b.bpm b.changes).1.spm.peers from rfl, ht.peers]
    rw [ho.presence] at hbp
    by_cases hs : sws.LooksUp b.changes w q
    · obtain rfl := Option.some.inj ((ho.became.seen q hs).symm.trans hbp)
      rcases hs with hj | hs
      · exact .inl hj.1
      · exact hok w q ⟨htr, hblk, hs⟩ hBp
    · by_cases hl : sws.Leaving b.changes q
      · rw [ho.became.gone q hl hs] at hbp
        exact absurd hbp (by simp)
      · rw [ho.became.same q hl hs] at hbp
        refine hstay q ?_ hl
        rcases ho.starts with ⟨-, hv⟩ | ⟨rfl, -⟩
        · obtain ⟨wi₀, hwi₀, rfl⟩ := view_eq_some.mp hv
          exact h.known w wi₀ hwi₀ q bp hbp hBp
        · by_contra hq
          simp [View.fresh, hq] at hbp
  refine ⟨hknown, fun w wi hwi hne => ?_⟩
  obtain ⟨v₀, v, ho⟩ := ht.want w wi hwi
  by_cases hv : v.sentTo = .empty
  · -- sent in this turn, to the best peer
    by_cases hm : ∃ q, sws.MemberAfter b.changes q
    · rw [ho.asks hv hm] at hne ⊢
      obtain ⟨bp, hbp, hnot, -⟩ := wi.best.named hne
      exact hknown w wi hwi _ bp hbp (hB bp hnot)
    · exact absurd (ho.idle hv hm) hne
  · -- sent in an earlier turn, to a peer that has not left
    have hr : ¬ sws.Releases b.changes w v₀.sentTo := fun hr => hv (ho.became.unsent hr)
    have hsame := ho.became.waits hr
    rw [ho.waits hv, hsame]
    rw [hsame] at hv
    refine (ht.peers _).mpr (hstay _ ?_ fun hl => hr (.inl hl))
    rcases ho.starts with ⟨-, hv₀⟩ | ⟨rfl, -⟩
    · obtain ⟨wi₀, hwi₀, rfl⟩ := view_eq_some.mp hv₀
      exact h.sentTo w wi₀ hwi₀ hv
    · exact absurd rfl hv

/-! ## All along a run -/

theorem onlyMembers_iff : sws.OnlyMembers ↔ Members (fun _ => True) sws := by
  constructor
  · intro h
    refine ⟨fun w wi hwi q b hb _ => ?_, fun w wi hwi => (h w wi hwi).2.2⟩
    exact (h w wi hwi).1 q (GoMap.mem_of_lookup hb)
  · intro h w wi hwi
    refine ⟨fun q hq => ?_, h.bestPeer (fun _ _ => trivial) hwi, h.sentTo w wi hwi⟩
    obtain ⟨b, hb⟩ := GoMap.mem_iff_lookup.mp hq
    exact h.known w wi hwi q b hb trivial

/-- A peer outside the session that speaks of a want becomes known to it. -/
theorem not_onlyMembers_turn (b : Batch) (hno : ¬ sws.FromMembers b) :
    ¬ (sws.turn b).OnlyMembers := by
  intro h
  refine hno fun w q ⟨htr, hblk, hs⟩ => ?_
  have ht := turn_onChange b.bpm b.changes sws
  obtain ⟨wi, hwi⟩ := GoMap.mem_iff_lookup.mp ((ht.tracked w).mpr ⟨htr, hblk⟩)
  obtain ⟨v₀, v, ho⟩ := ht.want w wi hwi
  have hq : wi.blockPresence.lookup q = some _ :=
    (ho.presence q).trans (ho.became.seen q (.inr hs))
  exact (ht.peers q).mp ((h w wi hwi).1 q (GoMap.mem_of_lookup hq))

/-- **Only session peers are candidates**, in every state of a run, just when in
every batch of it the peers that speak of wants are peers of the session. -/
theorem always_onlyMembers_iff (sid : SessionID) (rng : Nat → Draw) (batches : List Batch) :
    Always turn OnlyMembers (new sid rng) batches ↔
      Meets turn FromMembers (new sid rng) batches := by
  refine always_iff_meets (I := OnlyMembers) (fun _ h => h) (fun sws b h hok => ?_)
    (fun _ b _ hno => not_onlyMembers_turn b hno) batches
    (onlyMembers_iff.mpr (members_new sid rng))
  exact onlyMembers_iff.mpr ((onlyMembers_iff.mp h).turn (fun _ _ => trivial) b
    fun w q hs _ => hok w q hs)

/-- A HAVE and the loss of the peer in one batch: the want is sent to a peer that
is not in the session, and waits for it. -/
theorem sentTo_departed_peer :
    let w : Want := ⟨⟨[1]⟩, []⟩
    let p : PeerID := ⟨[7]⟩
    let q : PeerID := ⟨[8]⟩
    let sws := run turn (new 1 fun _ => .plain)
      [⟨.new, [{ update := ⟨q, [], [⟨⟨[2]⟩, []⟩], []⟩ }]⟩,
        ⟨BlockPresenceManager.new.receiveFrom p [w] [],
          [{ add := [w] }, { update := ⟨p, [], [w], []⟩ }, { availability := ⟨p, false⟩ }]⟩]
    (sws.wants.lookup w).map (fun wi => (wi.bestPeer, wi.sentTo)) = some (p, p) ∧
      p ∉ sws.spm.peers ∧ ¬ sws.OnlyMembers := by
  intro w p q sws
  have hsent : (sws.wants.lookup w).map (fun wi => (wi.bestPeer, wi.sentTo)) = some (p, p) := by
    decide
  have hp : p ∉ sws.spm.peers := by decide
  refine ⟨hsent, hp, fun h => ?_⟩
  obtain ⟨wi, hwi, heq⟩ := Option.map_eq_some_iff.mp hsent
  have hto : wi.sentTo = p := congrArg Prod.snd heq
  exact hp (hto ▸ (h w wi hwi).2.2 (by rw [hto]; decide))

end SessionWantSender

end BitswapAuth
