/-
# `BitswapAuth.Session.Reports` — no report of exhaustion is stray or repeated

The candidates for a report are collected without care.  After a DONT_HAVE they may
name a want twice, or one that is not wanted any more; when a peer leaves they are all
wants, after as many zero ones.  What goes into the report is sorted out by
`newlyExhausted` alone, which takes what is tracked and not yet marked as exhausted, and
marks it:

    candidates  →  tracked, not marked  →  marked and reported

The mark goes only when a HAVE is recorded for the want, or with the want itself.  So a
want is reported twice only if it was untracked in between, or a HAVE was recorded.
-/
import BitswapAuth.Session.Exhaustion

namespace BitswapAuth

open Lib

/-- The want stays tracked all through the batch: nothing in it cancels the want or brings its
block. -/
def Batch.Keeps (b : Batch) (w : Want) : Prop := Kept b.changes w ∧ w ∉ blocksOf b.changes

namespace SessionWantSender

variable {sws : SessionWantSender} {b : Batch} {w : Want}

/-- The want is tracked, and marked as exhausted. -/
def IsMarked (sws : SessionWantSender) (w : Want) : Prop :=
  ∃ v, sws.view w = some v ∧ v.exhausted = true

/-! ## One report -/

/-- What `newlyExhausted` has listed so far: wants that it has marked, and none of them twice. -/
structure Listed (s : SessionWantSender × List Want) : Prop where
  nodup : s.2.Nodup
  marked : ∀ w ∈ s.2, s.1.IsMarked w

theorem IsMarked.markExhausted {s : SessionWantSender × List Want} (h : s.1.IsMarked w)
    (a : Want) : (markExhausted s a).1.IsMarked w := by
  obtain ⟨v, hv, hx⟩ := h
  rw [IsMarked, view_markExhausted, hv]
  split
  · exact ⟨v.exhaust, rfl, rfl⟩
  · exact ⟨v, rfl, hx⟩

/-- A round lists its want only if it is tracked and not marked, and marks it. -/
theorem listed_markExhausted (s : SessionWantSender × List Want) (a : Want) (h : Listed s) :
    Listed (markExhausted s a) := by
  have hkeeps : ∀ w ∈ s.2, (markExhausted s a).1.IsMarked w :=
    fun w hw => (h.marked w hw).markExhausted a
  have hself : a ∈ s.1.wants → (markExhausted s a).1.IsMarked a := by
    intro ha
    obtain ⟨v, hv⟩ := Option.ne_none_iff_exists'.mp fun hn => view_eq_none.mp hn ha
    rw [IsMarked, view_markExhausted, if_pos rfl, hv]
    exact ⟨v.exhaust, rfl, rfl⟩
  revert hkeeps hself
  rw [markExhausted]
  split
  · exact fun _ _ => h
  · rename_i wi ha
    split
    · exact fun _ _ => h
    · rename_i hx
      intro hkeeps hself
      have hno : a ∉ s.2 := by
        intro hin
        obtain ⟨v, hv, hx'⟩ := h.marked a hin
        obtain ⟨wi', ha', rfl⟩ := view_eq_some.mp hv
        obtain rfl := Option.some.inj (ha.symm.trans ha')
        exact hx hx'
      refine ⟨?_, fun w hw => ?_⟩
      · exact h.nodup.append (List.nodup_singleton a) (List.disjoint_singleton.mpr hno)
      · rcases List.mem_append.mp hw with hw | hw
        · exact hkeeps w hw
        · obtain rfl := List.mem_singleton.mp hw
          exact hself (GoMap.mem_of_lookup ha)

theorem nodup_reportsOf_processExhaustedWants (sws : SessionWantSender) (l : List Want) :
    (reportsOf (sws.processExhaustedWants l).2).Nodup := by
  rw [reportsOf_processExhaustedWants]
  exact (run_invariant listed_markExhausted l (s := (sws, [])) ⟨List.nodup_nil, by simp⟩).nodup

theorem nodup_reportsOf_checkForExhaustedWants (bpm : BlockPresenceManager) (dontHaves : List Want)
    (newlyUnavailable : List PeerID) (sws : SessionWantSender) :
    (reportsOf (sws.checkForExhaustedWants bpm dontHaves newlyUnavailable).2).Nodup := by
  obtain ⟨sws', l, heq, -⟩ := @exists_processExhaustedWants bpm dontHaves newlyUnavailable sws
  rw [heq]
  exact nodup_reportsOf_processExhaustedWants sws' l

/-- Sending leaves the marks as they are. -/
theorem isMarked_turn (sws : SessionWantSender) (b : Batch) (w : Want) :
    (sws.turn b).IsMarked w ↔ (sws.settle b.bpm b.changes).sws.IsMarked w := by
  rw [turn]
  rcases onChange_cases b.bpm b.changes sws with ⟨-, sws', sent, hsend, hturn⟩ | ⟨-, hturn⟩
  · have ho := sentOut_sendNextWants (sws.settle b.bpm b.changes).newlyAvailable
      (sws.settle b.bpm b.changes).sws
    rw [hsend] at ho
    rw [hturn, IsMarked, IsMarked, view, view, ho.wants]
    cases (sws.settle b.bpm b.changes).sws.wants.lookup w with
    | none => simp
    | some wi => simp [WantInfo.view, ask]
  · rw [hturn]

/-- A want that is reported is tracked when the report is made, and marked after the turn. -/
theorem isMarked_of_reported (h : w ∈ reportsOf (sws.calls b)) :
    w ∈ (sws.settle b.bpm b.changes).sws.wants ∧ (sws.turn b).IsMarked w := by
  obtain ⟨sws₁, dontHaves, newlyUnavailable, -, hsws, hreports⟩ := ready_calls sws b
  rw [hreports, mem_reportsOf_checkForExhaustedWants] at h
  obtain ⟨⟨v, hv, -⟩, hm⟩ := h
  have hj := @judged_checkForExhaustedWants b.bpm dontHaves newlyUnavailable sws₁ w
  rw [hv, ← hsws] at hj
  obtain ⟨v', hv', hj⟩ := rel_some_left hj
  obtain ⟨wi, hwi, -⟩ := view_eq_some.mp hv'
  rw [isMarked_turn]
  exact ⟨GoMap.mem_of_lookup hwi, v', hv', hj.exhausted.mpr (.inr hm)⟩

theorem nodup_reportsOf_calls (sws : SessionWantSender) (b : Batch) :
    (reportsOf (sws.calls b)).Nodup := by
  obtain ⟨sws₁, dontHaves, newlyUnavailable, -, -, hreports⟩ := ready_calls sws b
  rw [hreports]
  exact nodup_reportsOf_checkForExhaustedWants _ _ _ _

/-! ## From one report to the next -/

/-- A HAVE of some peer is recorded for the want in the turn. -/
def RecordsHave (sws : SessionWantSender) (b : Batch) (w : Want) : Prop :=
  ∃ q, sws.LooksUp b.changes w q ∧ b.bpm.presenceOf q w.cid = .BPHave ∧
    ∃ wi, (sws.turn b).wants.lookup w = some wi ∧ wi.blockPresence.lookup q = some .BPHave

/-- A want that stays tracked is tracked after the turn, and the peers that were looked up for it
are recorded with what the presence manager has of them. -/
theorem recordsHave_of_looksUp (hin : w ∈ sws.wants) (hk : b.Keeps w) {q : PeerID}
    (hq : sws.LooksUp b.changes w q) (hhave : b.bpm.presenceOf q w.cid = .BPHave) :
    sws.RecordsHave b w := by
  have ht : Turn b.bpm b.changes sws (sws.turn b) (sws.calls b) := turn_onChange _ _ _
  have htracked : TrackedAfter w (w ∈ sws.wants) b.changes := by
    rw [eq_true hin]
    exact trackedAfter_of_kept hk.1
  obtain ⟨wi, hwi⟩ := GoMap.mem_iff_lookup.mp ((ht.tracked w).mpr ⟨htracked, hk.2⟩)
  obtain ⟨v₀, v, ho⟩ := ht.want w wi hwi
  refine ⟨q, hq, hhave, wi, hwi, ?_⟩
  rw [ho.presence, ho.became.seen q hq, hhave]

/-- **The mark lasts.**  A turn that keeps a marked want tracked and records no HAVE for it
leaves it marked, and does not report it. -/
theorem IsMarked.stays (h : sws.IsMarked w) (hk : b.Keeps w) (hno : ¬ sws.RecordsHave b w) :
    (sws.turn b).IsMarked w ∧ w ∉ reportsOf (sws.calls b) := by
  obtain ⟨v, hv, hx⟩ := h
  obtain ⟨wi, hwi, rfl⟩ := view_eq_some.mp hv
  have hin : w ∈ sws.wants := GoMap.mem_of_lookup hwi
  obtain ⟨sws₁, dontHaves, newlyUnavailable, hr, hsws, hreports⟩ := ready_calls sws b
  have htracked : TrackedAfter w (w ∈ sws.wants) b.changes := by
    rw [eq_true hin]
    exact trackedAfter_of_kept hk.1
  obtain ⟨v₁, hv₁⟩ := Option.ne_none_iff_exists'.mp ((hr.tracked w).mpr ⟨htracked, hk.2⟩)
  obtain ⟨v₀, hstart, hbecame⟩ := hr.want w v₁ hv₁
  -- the want comes to the check with its mark
  have hx₁ : v₁.exhausted = true := by
    refine hbecame.exhausted.mpr ⟨hstart.exhausted_iff.mpr ⟨hk.1, wi, hwi, hx⟩, fun q hq hh => ?_⟩
    exact hno (recordsHave_of_looksUp hin hk hq hh)
  have hj := @judged_checkForExhaustedWants b.bpm dontHaves newlyUnavailable sws₁ w
  constructor
  · rw [hv₁] at hj
    obtain ⟨v', hv', hj⟩ := rel_some_left hj
    rw [isMarked_turn, hsws]
    exact ⟨v', hv', hj.exhausted.mpr (.inl hx₁)⟩
  · rw [hreports, mem_reportsOf_checkForExhaustedWants]
    rintro ⟨⟨v', hv', hx'⟩, -⟩
    obtain rfl := Option.some.inj (hv₁.symm.trans hv')
    rw [hx₁] at hx'
    cases hx'

/-- A want that is marked and then reported had a HAVE recorded on the way. -/
theorem IsMarked.recordsHave_of_reported (h : sws.IsMarked w) (mid : List Batch)
    (hk : ∀ c ∈ mid ++ [b], c.Keeps w) (hrep : w ∈ reportsOf ((run turn sws mid).calls b)) :
    ∃ mid₁ c mid₂, mid ++ [b] = mid₁ ++ c :: mid₂ ∧ (run turn sws mid₁).RecordsHave c w := by
  induction mid generalizing sws with
  | nil =>
      refine ⟨[], b, [], rfl, ?_⟩
      by_contra hno
      exact (h.stays (hk b List.mem_cons_self) hno).2 hrep
  | cons c mid ih =>
      obtain ⟨hc, hk⟩ := List.forall_mem_cons.mp hk
      by_cases hhave : sws.RecordsHave c w
      · exact ⟨[], c, mid ++ [b], rfl, hhave⟩
      · obtain ⟨mid₁, c', mid₂, heq, hrec⟩ := ih (h.stays hc hhave).1 hk hrep
        exact ⟨c :: mid₁, c', mid₂, congrArg (c :: ·) heq, hrec⟩

/-- **No stray and no repeated reports.**  In every turn of every run a report names wants that
are tracked when it is made, and no want is named twice.  When a want is reported in one turn and
again in a later one, with no batch in between or in that turn that untracks it, then in one of
these turns a HAVE of some peer was recorded for it. -/
theorem reports_fresh (sid : SessionID) (rng : Nat → Draw) (pre : List Batch) (b : Batch) :
    let s := run turn (new sid rng) pre
    (reportsOf (s.calls b)).Nodup ∧
    (∀ ws, .onPeersExhausted ws ∈ s.calls b →
      ws.Nodup ∧ ∀ w ∈ ws, w ∈ (s.settle b.bpm b.changes).sws.wants) ∧
    ∀ w ∈ reportsOf (s.calls b), ∀ (mid : List Batch) (b' : Batch),
      (∀ c ∈ mid ++ [b'], c.Keeps w) → w ∈ reportsOf ((run turn (s.turn b) mid).calls b') →
        ∃ mid₁ c mid₂, mid ++ [b'] = mid₁ ++ c :: mid₂ ∧
          (run turn (s.turn b) mid₁).RecordsHave c w := by
  intro s
  have hnd := nodup_reportsOf_calls s b
  refine ⟨hnd, fun ws hws => ⟨(List.nodup_flatMap.mp hnd).1 _ hws, fun w hw => ?_⟩,
    fun w hw mid b' hk hrep => ?_⟩
  · exact (isMarked_of_reported (List.mem_flatMap.mpr ⟨_, hws, hw⟩)).1
  · exact (isMarked_of_reported hw).2.recordsHave_of_reported mid hk hrep

end SessionWantSender

end BitswapAuth
