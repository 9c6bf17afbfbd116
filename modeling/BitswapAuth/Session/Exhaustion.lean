/-
# `BitswapAuth.Session.Exhaustion` — what a report of exhaustion rests on

When every peer of the session has said DONT_HAVE for a want, the want is exhausted, and
`onPeersExhausted` tells the session to look for other peers.  Whether a peer has said it
is looked up in the block presence manager, by CID.  A peer that has denied the block
under one auth string so counts as one that has denied it under every other, although it
may release it under those:

    p : DONT_HAVE (c, a)
    q : DONT_HAVE (c, b)          both (c, a) and (c, b) are reported

What the presence manager has is tied to the messages (`Attested`): behind each DONT_HAVE that it
has for a CID is one that the peer has sent for the want and not taken back by a HAVE, as long as
no DONT_HAVE comes for that CID under another auth string.  In such a run every report of the want
is true (`reportDenied_of_oneAuth`), so that nothing but the auth strings is behind a false one.
-/
import BitswapAuth.Session.Denial
import BitswapAuth.Session.Presence

namespace BitswapAuth

open Lib

namespace SessionWantSender

variable {sws : SessionWantSender} {b : Batch} {w : Want}

/-! ## The wants that a turn reports -/

theorem reportsOf_sendNextWants (na : List PeerID) (sws : SessionWantSender) :
    reportsOf (sws.sendNextWants na).2 = [] := by
  refine List.flatMap_eq_nil_iff.mpr fun e he => ?_
  obtain ⟨p, blks, haves, rfl | rfl⟩ := mem_calls_sendNextWants na sws e he <;> rfl

theorem reportsOf_calls (sws : SessionWantSender) (b : Batch) :
    reportsOf (sws.calls b) = reportsOf (sws.settle b.bpm b.changes).calls := by
  rw [calls]
  rcases onChange_cases b.bpm b.changes sws with ⟨-, sws', sent, hsend, hturn⟩ | ⟨-, hturn⟩
  · have hsent := reportsOf_sendNextWants (sws.settle b.bpm b.changes).newlyAvailable
      (sws.settle b.bpm b.changes).sws
    rw [hsend] at hsent
    rw [hturn, reportsOf_append, hsent, List.append_nil]
  · rw [hturn]

/-- The check that a turn makes, and the reports that come of it. -/
theorem ready_calls (sws : SessionWantSender) (b : Batch) : ∃ sws₁ dontHaves newlyUnavailable,
    Ready b.bpm b.changes sws sws₁ dontHaves newlyUnavailable ∧
      (sws.settle b.bpm b.changes).sws =
        (sws₁.checkForExhaustedWants b.bpm dontHaves newlyUnavailable).1 ∧
      reportsOf (sws.calls b) =
        reportsOf (sws₁.checkForExhaustedWants b.bpm dontHaves newlyUnavailable).2 := by
  obtain ⟨sws₁, dontHaves, newlyUnavailable, hr, hsws, xs, ys, hcalls, hxs, hys, -⟩ :=
    ready_settle b.bpm b.changes sws
  refine ⟨sws₁, dontHaves, newlyUnavailable, hr, hsws, ?_⟩
  rw [reportsOf_calls, hcalls, reportsOf_append, reportsOf_append, hxs, hys, List.nil_append,
    List.append_nil]

/-- A turn that leaves the session with peers reports only what the presence manager has a
DONT_HAVE for from every one of them. -/
theorem denied_of_mem_reportsOf (hw : w ∈ reportsOf (sws.calls b)) {q : PeerID}
    (hq : sws.MemberAfter b.changes q) : b.bpm.peerDoesNotHaveBlock q w.cid = true := by
  obtain ⟨sws₁, dontHaves, newlyUnavailable, hr, -, hreports⟩ := ready_calls sws b
  rw [hreports, mem_reportsOf_checkForExhaustedWants] at hw
  obtain ⟨⟨v, hv, -⟩, hmarked⟩ := hw
  have hne : sws₁.view w ≠ none := by
    rw [hv]
    exact Option.some_ne_none v
  exact ((hr.marked ⟨q, hq⟩ hne).mp hmarked).2 q hq

end SessionWantSender

/-! ## What the peers have said -/

/-- The peer has sent a DONT_HAVE for the want, and no HAVE for it after that. -/
def StillDenies (p : PeerID) (w : Want) : List Update → Prop
  | [] => False
  | m :: log =>
      StillDenies p w log ∨
        (m.sender = p ∧ w ∈ m.dontHaves ∧ ∀ m' ∈ log, m'.sender = p → w ∉ m'.haves)

instance decidableStillDenies (p : PeerID) (w : Want) :
    (log : List Update) → Decidable (StillDenies p w log)
  | [] => .isFalse id
  | m :: log =>
      have := decidableStillDenies p w log
      inferInstanceAs (Decidable (StillDenies p w log ∨
        (m.sender = p ∧ w ∈ m.dontHaves ∧ ∀ m' ∈ log, m'.sender = p → w ∉ m'.haves)))

theorem stillDenies_append {p : PeerID} {w : Want} {m : Update} : ∀ {log : List Update},
    StillDenies p w (log ++ [m]) ↔
      (StillDenies p w log ∧ (m.sender = p → w ∉ m.haves)) ∨ (m.sender = p ∧ w ∈ m.dontHaves)
  | [] => by simp [StillDenies]
  | m' :: log => by
      rw [List.cons_append, StillDenies, stillDenies_append, StillDenies]
      simp only [List.forall_mem_append, List.forall_mem_singleton]
      rw [or_right_comm, or_and_right, and_assoc, and_assoc]

namespace Driven

open SessionWantSender

/-- If a batch has reported the want, then the session has no peers or each of them still denies
the want. -/
def ReportDeniedIn (w : Want) (s : Driven) (batch : List (Nat × Change)) : Prop :=
  let b : Batch := ⟨s.bpm, batch.map Prod.snd⟩
  w ∈ reportsOf (s.sws.calls b) → (s.sws.turn b).spm.hasPeers = false ∨
    ∀ p ∈ (s.sws.turn b).spm.peers.keys, StillDenies p w s.log

/-- When `onPeersExhausted` is called with the want, the session has no peers or each of them has
sent a DONT_HAVE for it that no HAVE has followed. -/
def ReportDenied (w : Want) (s : Driven) : Act → Prop
  | .onChange n =>
      match s.queue with
      | [] => True
      | ch :: chs => s.ReportDeniedIn w (ch :: chs.take n)
  | _ => True

instance (w : Want) (s : Driven) (batch : List (Nat × Change)) :
    Decidable (s.ReportDeniedIn w batch) :=
  inferInstanceAs (Decidable (w ∈ reportsOf (s.sws.calls ⟨s.bpm, batch.map Prod.snd⟩) →
    (s.sws.turn ⟨s.bpm, batch.map Prod.snd⟩).spm.hasPeers = false ∨
      ∀ p ∈ (s.sws.turn ⟨s.bpm, batch.map Prod.snd⟩).spm.peers.keys, StillDenies p w s.log))

instance (w : Want) (s : Driven) : (a : Act) → Decidable (s.ReportDenied w a)
  | .receive _ | .pass _ _ | .change _ _ _ | .removeKeys _ => .isTrue trivial
  | .onChange n =>
      match s with
      | ⟨_, _, _, [], _, _, _⟩ => .isTrue trivial
      | ⟨bpm, sws, passing, ch :: chs, log, denied, repeated⟩ =>
          inferInstanceAs (Decidable (ReportDeniedIn w ⟨bpm, sws, passing, ch :: chs, log, denied,
            repeated⟩ (ch :: chs.take n)))

/-! ## What the presence manager has it from -/

/-- No DONT_HAVE comes for the CID of the want with another auth string. -/
def OneAuth (w : Want) (_ : Driven) : Act → Prop
  | .receive m => ∀ v ∈ m.dontHaves, v.cid = w.cid → v = w
  | _ => True

instance (w : Want) (s : Driven) : (a : Act) → Decidable (s.OneAuth w a)
  | .receive m => inferInstanceAs (Decidable (∀ v ∈ m.dontHaves, v.cid = w.cid → v = w))
  | .pass _ _ | .change _ _ _ | .removeKeys _ | .onChange _ => .isTrue trivial

/-- Behind each DONT_HAVE that the presence manager has for the CID of the want is one that the
peer has sent for the want, and not taken back. -/
def Attested (w : Want) (s : Driven) : Prop :=
  ∀ p, s.bpm.find p w.cid = some false → StillDenies p w s.log

section

variable {s : Driven} {w : Want}

/-- A HAVE for the want takes the DONT_HAVE out of the presence manager, and a DONT_HAVE that is
put in is one for the want. -/
theorem Attested.receive (h : s.Attested w) {m : Update} (hm : s.OneAuth w (.receive m)) :
    (s.receive m).Attested w := by
  intro p hfind
  show StillDenies p w (s.log ++ [m])
  rw [stillDenies_append]
  rcases BlockPresenceManager.denied_receiveFrom hfind with ⟨hold, hhave⟩ | ⟨rfl, v, hv, hcid⟩
  · refine .inl ⟨h p hold, fun hsender hmem => ?_⟩
    exact hhave ⟨hsender.symm, w, hmem, rfl⟩
  · exact .inr ⟨rfl, hm v hv hcid ▸ hv⟩

theorem attested_step (s : Driven) (a : Act) (h : s.Attested w) (hok : s.OneAuth w a) :
    (s.step a).Attested w := by
  cases a with
  | receive m => exact h.receive hok
  | pass i interested =>
      rw [step, pass]
      split
      · exact h
      · exact h
  | change add cancel availability => exact h
  | removeKeys ws =>
      intro p hfind
      have hfind' : (s.bpm.removeKeys ws).find p w.cid = some false := hfind
      rw [BlockPresenceManager.find_removeKeys] at hfind'
      split at hfind'
      · cases hfind'
      · exact h p hfind'
  | onChange n =>
      rw [step]
      split
      · exact h
      · exact h

/-- A report goes by the presence manager, so it is as true as what is behind its entries. -/
theorem Attested.reportDeniedIn (h : s.Attested w) (batch : List (Nat × Change)) :
    s.ReportDeniedIn w batch := by
  have hpeers : ∀ q, q ∈ (s.sws.turn ⟨s.bpm, batch.map Prod.snd⟩).spm.peers ↔
      s.sws.MemberAfter (batch.map Prod.snd) q :=
    (turn_onChange s.bpm (batch.map Prod.snd) s.sws).peers
  intro hw
  refine .inr fun p hp => h p ?_
  have hden := denied_of_mem_reportsOf hw ((hpeers p).mp hp)
  simpa [BlockPresenceManager.peerDoesNotHaveBlock] using hden

theorem Attested.reportDenied (h : s.Attested w) (a : Act) : s.ReportDenied w a := by
  cases a with
  | onChange n =>
      rw [ReportDenied]
      split
      · trivial
      · exact h.reportDeniedIn _
  | _ => trivial

end

/-- **Reports of exhaustion are true** of a want whose CID is denied under no other auth string:
in every run in which each DONT_HAVE that comes for the CID is for the want, whenever the want is
reported, each peer of the session has sent a DONT_HAVE for it that no HAVE has followed. -/
theorem reportDenied_of_oneAuth (w : Want) (sid : SessionID) (rng : Nat → Draw) (acts : List Act)
    (hok : Meets step (OneAuth w) (start sid rng) acts) :
    Meets step (ReportDenied w) (start sid rng) acts :=
  meets_of_meets (fun _ a h => h.reportDenied a) attested_step acts
    (fun _ hfind => by cases hfind) hok

/-- The two peers of the session deny the want, and it is reported; of another want for the same
block nothing is said. -/
theorem reportDenied_of_both :
    let w : Want := ⟨⟨[1]⟩, [65]⟩
    let w' : Want := ⟨⟨[1]⟩, [66]⟩
    let x : Want := ⟨⟨[2]⟩, []⟩
    let p : PeerID := ⟨[7]⟩
    let q : PeerID := ⟨[8]⟩
    let acts : List Act := [.change [w, w'] [] ⟨.empty, false⟩, .receive ⟨p, [], [x], []⟩,
      .pass 0 [x], .receive ⟨q, [], [x], []⟩, .pass 0 [x], .onChange 2,
      .receive ⟨p, [], [], [w]⟩, .pass 0 [w], .receive ⟨q, [], [], [w]⟩, .pass 0 [w]]
    let s := run step (start 1 fun _ => .plain) acts
    reportsOf (s.sws.calls ⟨s.bpm, s.queue.map Prod.snd⟩) = [w] ∧
      Meets step (ReportDenied w) (start 1 fun _ => .plain) (acts ++ [.onChange 1]) := by
  intro w w' x p q acts s
  exact ⟨by decide, reportDenied_of_oneAuth w 1 _ _ (by decide)⟩

/-- One peer denies a block under one auth string and the other under another: both wants are
reported as exhausted, and neither peer has denied both. -/
theorem exhausted_by_other_auth :
    let w : Want := ⟨⟨[1]⟩, [65]⟩
    let w' : Want := ⟨⟨[1]⟩, [66]⟩
    let x : Want := ⟨⟨[2]⟩, []⟩
    let p : PeerID := ⟨[7]⟩
    let q : PeerID := ⟨[8]⟩
    let acts : List Act := [.change [w, w'] [] ⟨.empty, false⟩, .receive ⟨p, [], [x], []⟩,
      .pass 0 [x], .receive ⟨q, [], [x], []⟩, .pass 0 [x], .onChange 2,
      .receive ⟨p, [], [], [w]⟩, .pass 0 [w], .receive ⟨q, [], [], [w']⟩, .pass 0 [w']]
    let s := run step (start 1 fun _ => .plain) acts
    let b : Batch := ⟨s.bpm, s.queue.map Prod.snd⟩
    reportsOf (s.sws.calls b) = [w, w'] ∧ q ∈ (s.sws.turn b).spm.peers ∧
      ¬ StillDenies q w s.log ∧
      ¬ Meets step (ReportDenied w) (start 1 fun _ => .plain) (acts ++ [.onChange 1]) := by
  intro w w' x p q acts s b
  refine ⟨by decide, by decide, by decide, by decide⟩

end Driven

end BitswapAuth
