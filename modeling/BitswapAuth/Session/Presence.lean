/-
# `BitswapAuth.Session.Presence` — how long a block presence is kept

What peers say of a block is recorded in the block presence manager, by CID, and is to be
there for as long as a session is interested.  The session manager sees to that with two
calls: every message is recorded when it comes in, and the wants that nobody is interested
in any more, when a session drops them, are handed to `RemoveKeys`.

    interest   by want (c, a)      recorded per session
    presence   by CID c            recorded from any message, freed with any want of c

Both ends are loose.  Wants of one CID share an entry, so that the last interest in (c, a)
takes away what is known of c while somebody is interested in (c, b); and the two parts of
a removal take different locks, so that interest in (c, a) itself may be new when its keys
are removed.  `survives_iff` says that these are all the losses.  And a message is recorded
whoever is interested, so that entries come in that no removal will name:
`always_noStray_iff`.
-/
import BitswapAuth.Lib.Run
import BitswapAuth.Session.Interest
import BitswapAuth.Session.WantInfo

namespace BitswapAuth

open Lib SessionInterestManager BlockPresenceManager

/-! ## The block presence manager -/

namespace BlockPresenceManager

variable {bpm : BlockPresenceManager} {p q : PeerID} {c d : Cid}

theorem find_eq_lookup : bpm.find p c = ((bpm.presence.lookup c).getD ∅).lookup p := by
  rw [find]
  cases bpm.presence.lookup c <;> rfl

theorem mem_of_find (h : bpm.find p c ≠ none) : c ∈ bpm.presence := by
  by_contra hc
  rw [find, AList.lookup_eq_none.mpr hc] at h
  exact h rfl

theorem find_updateBlockPresence (present : Bool) :
    (bpm.updateBlockPresence p c present).find q d =
      if q = p ∧ d = c then some (bpm.peerHasBlock p c || present) else bpm.find q d := by
  rw [updateBlockPresence, ← find_eq_lookup]
  split
  · case isTrue h =>
      have hhas : bpm.peerHasBlock p c = true := by rw [peerHasBlock, h]; rfl
      split
      · case isTrue hpc =>
          obtain ⟨rfl, rfl⟩ := hpc
          rw [h, hhas, Bool.true_or]
      · rfl
  · case isFalse h =>
      have hhas : bpm.peerHasBlock p c = false := by
        rw [peerHasBlock]
        cases hf : bpm.find p c with
        | none => rfl
        | some b =>
            cases b with
            | false => rfl
            | true => exact absurd hf h
      rw [hhas, Bool.false_or, find, GoMap.lookup_insert_ite]
      by_cases hd : d = c
      · subst hd
        rw [if_pos rfl, Option.bind_some, GoMap.lookup_insert_ite, ← find_eq_lookup]
        simp only [and_true]
      · rw [if_neg hd, if_neg fun h => hd h.2]
        rfl

theorem mem_updateBlockPresence (present : Bool) :
    d ∈ (bpm.updateBlockPresence p c present).presence ↔ d ∈ bpm.presence ∨ c = d := by
  rw [updateBlockPresence, ← find_eq_lookup]
  split
  · case isTrue h =>
      have hc : c ∈ bpm.presence := mem_of_find (by rw [h]; exact Option.some_ne_none true)
      refine ⟨.inl, ?_⟩
      rintro (hd | rfl)
      · exact hd
      · exact hc
  · show d ∈ bpm.presence.insert c _ ↔ _
    rw [AList.mem_insert, or_comm, eq_comm]

/-- What is known of a block stays known, and a HAVE stays a HAVE. -/
def Keeps (bpm bpm' : BlockPresenceManager) : Prop :=
  ∀ p c v, bpm.find p c = some v → ∃ v', bpm'.find p c = some v' ∧ (v = true → v' = true)

theorem Keeps.refl (bpm : BlockPresenceManager) : bpm.Keeps bpm :=
  fun _ _ v h => ⟨v, h, id⟩

theorem Keeps.trans {bpm₁ bpm₂ : BlockPresenceManager} (h₁ : bpm.Keeps bpm₁)
    (h₂ : bpm₁.Keeps bpm₂) : bpm.Keeps bpm₂ := by
  intro p c v h
  obtain ⟨v₁, hv₁, himp₁⟩ := h₁ p c v h
  obtain ⟨v₂, hv₂, himp₂⟩ := h₂ p c v₁ hv₁
  exact ⟨v₂, hv₂, himp₂ ∘ himp₁⟩

theorem keeps_updateBlockPresence (present : Bool) :
    bpm.Keeps (bpm.updateBlockPresence p c present) := by
  intro q d v h
  rw [find_updateBlockPresence]
  split
  · case isTrue hqd =>
      obtain ⟨rfl, rfl⟩ := hqd
      refine ⟨_, rfl, fun hv => ?_⟩
      rw [peerHasBlock, h, hv]
      rfl
  · exact ⟨v, h, id⟩

theorem keeps_foldl (present : Bool) (ws : List Want) : ∀ bpm : BlockPresenceManager,
    bpm.Keeps (ws.foldl (fun b w => b.updateBlockPresence p w.cid present) bpm) := by
  induction ws with
  | nil => exact Keeps.refl
  | cons w ws ih =>
      intro bpm
      exact (keeps_updateBlockPresence present).trans (ih _)

theorem keeps_receiveFrom (haves dontHaves : List Want) :
    bpm.Keeps (bpm.receiveFrom p haves dontHaves) :=
  (keeps_foldl true haves bpm).trans (keeps_foldl false dontHaves _)

theorem denied_foldl_haves (ws : List Want) : ∀ bpm : BlockPresenceManager,
    (ws.foldl (fun b w => b.updateBlockPresence p w.cid true) bpm).find q c = some false →
    bpm.find q c = some false ∧ ¬ (q = p ∧ ∃ w ∈ ws, w.cid = c) := by
  induction ws with
  | nil =>
      intro bpm h
      refine ⟨h, ?_⟩
      rintro ⟨-, w, hw, -⟩
      cases hw
  | cons w ws ih =>
      intro bpm h
      obtain ⟨hfirst, hrest⟩ := ih _ h
      rw [find_updateBlockPresence, Bool.or_true] at hfirst
      split at hfirst
      · cases hfirst
      · case isFalse hne =>
          refine ⟨hfirst, ?_⟩
          rintro ⟨hq, w', hw', hc⟩
          rcases List.mem_cons.mp hw' with rfl | hw'
          · exact hne ⟨hq, hc.symm⟩
          · exact hrest ⟨hq, w', hw', hc⟩

theorem denied_foldl_dontHaves (ws : List Want) : ∀ bpm : BlockPresenceManager,
    (ws.foldl (fun b w => b.updateBlockPresence p w.cid false) bpm).find q c = some false →
    bpm.find q c = some false ∨ (q = p ∧ ∃ w ∈ ws, w.cid = c) := by
  induction ws with
  | nil =>
      intro bpm h
      exact .inl h
  | cons w ws ih =>
      intro bpm h
      rcases ih _ h with hfirst | ⟨hq, w', hw', hc⟩
      · rw [find_updateBlockPresence] at hfirst
        split at hfirst
        · case isTrue hqc => exact .inr ⟨hqc.1, w, List.mem_cons_self, hqc.2.symm⟩
        · exact .inl hfirst
      · exact .inr ⟨hq, w', List.mem_cons_of_mem w hw', hc⟩

/-- Where a peer is down for DONT_HAVE after a message, the message says so, or it was down
before and the message has no HAVE from it. -/
theorem denied_receiveFrom {haves dontHaves : List Want}
    (h : (bpm.receiveFrom p haves dontHaves).find q c = some false) :
    (bpm.find q c = some false ∧ ¬ (q = p ∧ ∃ w ∈ haves, w.cid = c)) ∨
      (q = p ∧ ∃ w ∈ dontHaves, w.cid = c) := by
  rcases denied_foldl_dontHaves dontHaves _ h with h | h
  · exact .inl (denied_foldl_haves haves bpm h)
  · exact .inr h

theorem mem_foldl_updateBlockPresence (present : Bool) (ws : List Want) :
    ∀ bpm : BlockPresenceManager,
      c ∈ (ws.foldl (fun b w => b.updateBlockPresence p w.cid present) bpm).presence ↔
        c ∈ bpm.presence ∨ ∃ w ∈ ws, w.cid = c := by
  induction ws with
  | nil => intro bpm; simp
  | cons w ws ih =>
      intro bpm
      rw [List.foldl_cons, ih, mem_updateBlockPresence, or_assoc]
      simp only [List.mem_cons, exists_eq_or_imp]

/-- A message makes its CIDs known, whoever asked. -/
theorem mem_receiveFrom (haves dontHaves : List Want) :
    c ∈ (bpm.receiveFrom p haves dontHaves).presence ↔
      c ∈ bpm.presence ∨ ∃ w ∈ haves ++ dontHaves, w.cid = c := by
  rw [receiveFrom, mem_foldl_updateBlockPresence, mem_foldl_updateBlockPresence, or_assoc]
  simp only [List.mem_append, or_and_right, exists_or]

theorem lookup_removeKeys (ws : List Want) :
    (bpm.removeKeys ws).presence.lookup c =
      if c ∈ ws.map Want.cid then none else bpm.presence.lookup c := by
  rw [removeKeys]
  show AList.lookup c (ws.foldl (fun m w => m.erase w.cid) bpm.presence) = _
  generalize bpm.presence = m
  induction ws generalizing m with
  | nil => rfl
  | cons w ws ih =>
      rw [List.foldl_cons, ih, GoMap.lookup_erase_ite, List.map_cons]
      by_cases hc : c = w.cid
      · simp [hc]
      · simp [hc]

theorem find_removeKeys (ws : List Want) :
    (bpm.removeKeys ws).find p c = if c ∈ ws.map Want.cid then none else bpm.find p c := by
  rw [find, lookup_removeKeys]
  split <;> rfl

theorem mem_removeKeys (ws : List Want) :
    c ∈ (bpm.removeKeys ws).presence ↔ c ∈ bpm.presence ∧ c ∉ ws.map Want.cid := by
  rw [GoMap.mem_iff_lookup, GoMap.mem_iff_lookup, lookup_removeKeys]
  split
  · case isTrue h => simp [h]
  · case isFalse h => simp [h]

end BlockPresenceManager

/-- A removal returns the want, or leaves a session that has an entry for it. -/
theorem SessionInterestManager.returned_or_left {sim : SessionInterestManager}
    {ses s : SessionID} {w : Want} (ws : List Want) (h : sim.find s w ≠ none) :
    w ∈ (ws.foldl (drop ses) (sim, [])).2 ∨
      ∃ s', (ws.foldl (drop ses) (sim, [])).1.find s' w ≠ none := by
  by_cases hother : ∃ s', s' ≠ ses ∧ sim.find s' w ≠ none
  · obtain ⟨s', hne, hs'⟩ := hother
    refine .inr ⟨s', ?_⟩
    rw [find_foldl_drop, if_neg fun h => hne h.1]
    exact hs'
  · have honly : sim.OnlyFor ses w := by
      refine ⟨mem_wants_of_find h, fun s' hne => ?_⟩
      by_contra hs'
      exact hother ⟨s', hne, hs'⟩
    by_cases hw : w ∈ ws
    · exact .inl ((mem_foldl_drop ws (sim, [])).mpr (.inr ⟨hw, honly⟩))
    · refine .inr ⟨s, ?_⟩
      rw [find_foldl_drop, if_neg fun h => hw h.2]
      exact h

/-! ## Sessions that share the presence manager -/

/-- The interest manager and the presence manager, and the keys of the removals that are in
progress. -/
structure Tracking where
  sim : SessionInterestManager
  bpm : BlockPresenceManager
  freeing : List (List Want)

namespace Tracking

/-- The locked sections.  `CancelSessionWants` and `RemoveSession` have one in each manager:
`removeSessionInterested` or `removeSession`, and later `removeKeys` with their place among
the removals in progress. -/
inductive Act where
  | recordSessionInterest (ses : SessionID) (ks : List Want)
  | removeSessionWants (ses : SessionID) (ks : List Want)
  | receiveFrom (p : PeerID) (haves dontHaves : List Want)
  | removeSessionInterested (ses : SessionID) (ws : List Want)
  | removeSession (ses : SessionID) (o : RangeOrder)
  | removeKeys (i : Nat)

def start : Tracking := ⟨.new, .new, []⟩

def step (s : Tracking) : Act → Tracking
  | .recordSessionInterest ses ks => { s with sim := s.sim.recordSessionInterest ses ks }
  | .removeSessionWants ses ks => { s with sim := s.sim.removeSessionWants ses ks }
  | .receiveFrom p haves dontHaves => { s with bpm := s.bpm.receiveFrom p haves dontHaves }
  | .removeSessionInterested ses ws =>
      let r := s.sim.removeSessionInterested ses ws
      { s with sim := r.1, freeing := s.freeing ++ [r.2] }
  | .removeSession ses o =>
      let r := s.sim.removeSession ses o
      { s with sim := r.1, freeing := s.freeing ++ [r.2] }
  | .removeKeys i =>
      match s.freeing[i]? with
      | none => s
      | some ws => { s with bpm := s.bpm.removeKeys ws, freeing := s.freeing.eraseIdx i }

/-- Some session is interested in a want with the CID. -/
def Interested (s : Tracking) (c : Cid) : Prop := ∃ ses w, w.cid = c ∧ s.sim.find ses w ≠ none

/-! ## What is known of a block while somebody is interested -/

/-- Wherever an entry is known in the run and its CID is of interest from then on, it is still
known later, and a HAVE has remained one. -/
def Survives (acts : List Act) : Prop :=
  ∀ as bs cs, acts = as ++ bs ++ cs → ∀ p c v, (run step start as).bpm.find p c = some v →
    Always step (fun s => s.Interested c) (run step start as) bs →
    ∃ v', (run step start (as ++ bs)).bpm.find p c = some v' ∧ (v = true → v' = true)

/-- The keys that are freed have no CID that somebody is interested in and something is known
of. -/
def FreesIdle (s : Tracking) : Act → Prop
  | .removeKeys i => ∀ ws ∈ s.freeing[i]?, ∀ w ∈ ws, ∀ p, s.bpm.find p w.cid ≠ none →
      ¬ s.Interested w.cid
  | _ => True

section

variable {s : Tracking} {c : Cid}

theorem find_step {a : Act} (hok : s.FreesIdle a) (hint : s.Interested c) {p : PeerID} {v : Bool}
    (h : s.bpm.find p c = some v) :
    ∃ v', (s.step a).bpm.find p c = some v' ∧ (v = true → v' = true) := by
  cases a with
  | receiveFrom q haves dontHaves =>
      exact keeps_receiveFrom haves dontHaves p c v h
  | removeKeys i =>
      rw [step]
      split
      · exact ⟨v, h, id⟩
      · case h_2 ws hws =>
          refine ⟨v, ?_, id⟩
          show (s.bpm.removeKeys ws).find p c = some v
          rw [find_removeKeys, if_neg, h]
          intro hc
          obtain ⟨w, hw, rfl⟩ := List.mem_map.mp hc
          exact hok ws hws w hw p (by rw [h]; exact Option.some_ne_none v) hint
  | recordSessionInterest ses ks => exact ⟨v, h, id⟩
  | removeSessionWants ses ks => exact ⟨v, h, id⟩
  | removeSessionInterested ses ws => exact ⟨v, h, id⟩
  | removeSession ses o => exact ⟨v, h, id⟩

theorem find_run {p : PeerID} : ∀ (acts : List Act) {s : Tracking} {v : Bool},
    Meets step FreesIdle s acts → Always step (fun s => s.Interested c) s acts →
    s.bpm.find p c = some v →
    ∃ v', (run step s acts).bpm.find p c = some v' ∧ (v = true → v' = true)
  | [], _, v, _, _, h => ⟨v, h, id⟩
  | a :: acts, s, v, hok, hint, h => by
      obtain ⟨v₁, hv₁, himp₁⟩ := find_step hok.1 hint.1 h
      obtain ⟨v₂, hv₂, himp₂⟩ := find_run acts hok.2 hint.2 hv₁
      exact ⟨v₂, hv₂, himp₂ ∘ himp₁⟩

end

/-- **Presence survives while somebody is interested in the CID**, all along a run, just when no
removal frees a CID that somebody is interested in. -/
theorem survives_iff (acts : List Act) : Survives acts ↔ Meets step FreesIdle start acts := by
  constructor
  · intro h
    refine (meets_iff_forall_append acts start).mpr fun as a cs heq => ?_
    cases a with
    | removeKeys i =>
        intro ws hws w hw p hknown hint
        obtain ⟨v, hv⟩ := Option.ne_none_iff_exists'.mp hknown
        have hstep : (run step start as).step (.removeKeys i) =
            { run step start as with
              bpm := (run step start as).bpm.removeKeys ws
              freeing := (run step start as).freeing.eraseIdx i } := by
          rw [step, hws]
        -- the removal leaves the interest as it is, and the entry is gone after it
        have hint' : ((run step start as).step (.removeKeys i)).Interested w.cid := by
          rw [hstep]
          exact hint
        obtain ⟨v', hv', -⟩ := h as [.removeKeys i] cs (by rw [heq, List.append_assoc]; rfl)
          p w.cid v hv ⟨hint, hint'⟩
        rw [run_append] at hv'
        have hgone : ((run step start as).step (.removeKeys i)).bpm.find p w.cid = none := by
          rw [hstep]
          show ((run step start as).bpm.removeKeys ws).find p w.cid = none
          rw [find_removeKeys, if_pos (List.mem_map_of_mem hw)]
        exact Option.some_ne_none v' (hv'.symm.trans hgone)
    | receiveFrom q haves dontHaves => trivial
    | recordSessionInterest ses ks => trivial
    | removeSessionWants ses ks => trivial
    | removeSessionInterested ses ws => trivial
    | removeSession ses o => trivial
  · intro hok as bs cs heq p c v hv hint
    rw [heq, List.append_assoc, meets_append, meets_append] at hok
    rw [run_append]
    exact find_run bs hok.2.1 hint hv

/-- Two sessions want one block under two auth strings, and a peer has said HAVE.  One of them
cancels, and the HAVE is gone while the other is still interested. -/
theorem lost_with_other_auth :
    let w : Want := ⟨⟨[1]⟩, [65]⟩
    let w' : Want := ⟨⟨[1]⟩, [66]⟩
    let p : PeerID := ⟨[7]⟩
    let acts : List Act := [.recordSessionInterest 1 [w], .recordSessionInterest 2 [w'],
      .receiveFrom p [w] [], .removeSessionInterested 1 [w], .removeKeys 0]
    (run step start (acts.take 3)).bpm.find p ⟨[1]⟩ = some true ∧
      (run step start acts).bpm.find p ⟨[1]⟩ = none ∧
      (run step start acts).Interested ⟨[1]⟩ ∧ ¬ Survives acts := by
  intro w w' p acts
  have hint : ∀ s : Tracking, s.sim.find 2 w' ≠ none → s.Interested ⟨[1]⟩ :=
    fun s hs => ⟨2, w', rfl, hs⟩
  have hhave : (run step start (acts.take 3)).bpm.find p ⟨[1]⟩ = some true := by decide
  have hnone : (run step start acts).bpm.find p ⟨[1]⟩ = none := by decide
  refine ⟨hhave, hnone, hint _ (by decide), fun h => ?_⟩
  have halways : Always step (fun s => s.Interested ⟨[1]⟩) (run step start (acts.take 3))
      (acts.drop 3) :=
    ⟨hint _ (by decide), hint _ (by decide), hint _ (by decide)⟩
  obtain ⟨v, hv, -⟩ := h (acts.take 3) (acts.drop 3) [] rfl p ⟨[1]⟩ true hhave halways
  exact Option.some_ne_none v (hv.symm.trans hnone)

/-! ## What is known of a block that nobody is interested in -/

/-- The operations of the session manager, each as one. -/
inductive Op where
  | recordSessionInterest (ses : SessionID) (ks : List Want)
  | removeSessionWants (ses : SessionID) (ks : List Want)
  | receiveFrom (p : PeerID) (haves dontHaves : List Want)
  | cancelSessionWants (ses : SessionID) (wants : List Want)
  | removeSession (ses : SessionID) (o : RangeOrder)

/-- The locked sections of an operation. -/
def sections : Op → List Act
  | .recordSessionInterest ses ks => [.recordSessionInterest ses ks]
  | .removeSessionWants ses ks => [.removeSessionWants ses ks]
  | .receiveFrom p haves dontHaves => [.receiveFrom p haves dontHaves]
  | .cancelSessionWants ses wants => [.removeSessionInterested ses wants, .removeKeys 0]
  | .removeSession ses o => [.removeSession ses o, .removeKeys 0]

/-- An operation with nothing in between. -/
def perform (s : Tracking) (op : Op) : Tracking := run step s (sections op)

/-- Every CID that something is known of is one that somebody is interested in. -/
def NoStray (s : Tracking) : Prop := ∀ c ∈ s.bpm.presence, s.Interested c

/-- A message is about CIDs that somebody is interested in. -/
def Solicited (s : Tracking) : Op → Prop
  | .receiveFrom _ haves dontHaves => ∀ w ∈ haves ++ dontHaves, s.Interested w.cid
  | _ => True

/-- No removal is in progress, and there is no stray entry. -/
structure Tidy (s : Tracking) : Prop where
  freeing : s.freeing = []
  noStray : s.NoStray

section

variable {s : Tracking}

/-- A removal in one frees what it leaves nobody interested in. -/
theorem Tidy.remove (h : s.Tidy) {r : SessionInterestManager × List Want}
    (hr : ∀ ses w, s.sim.find ses w ≠ none → w ∈ r.2 ∨ ∃ ses', r.1.find ses' w ≠ none) :
    Tidy ⟨r.1, s.bpm.removeKeys r.2, []⟩ := by
  refine ⟨rfl, fun c hc => ?_⟩
  obtain ⟨hc, hfreed⟩ := (mem_removeKeys r.2).mp hc
  obtain ⟨ses, w, rfl, hw⟩ := h.noStray c hc
  rcases hr ses w hw with hmem | ⟨ses', hses'⟩
  · exact absurd (List.mem_map_of_mem hmem) hfreed
  · exact ⟨ses', w, rfl, hses'⟩

/-- An operation that takes no interest away. -/
theorem Tidy.sim (h : s.Tidy) (sim : SessionInterestManager)
    (hsim : ∀ ses w, s.sim.find ses w ≠ none → sim.find ses w ≠ none) :
    Tidy { s with sim := sim } := by
  refine ⟨h.freeing, fun c hc => ?_⟩
  obtain ⟨ses, w, hw, hfind⟩ := h.noStray c hc
  exact ⟨ses, w, hw, hsim ses w hfind⟩

theorem tidy_perform (op : Op) (h : s.Tidy) (hok : s.Solicited op) : (s.perform op).Tidy := by
  cases op with
  | recordSessionInterest ses ks =>
      refine h.sim (s.sim.recordSessionInterest ses ks) fun ses' w hw => ?_
      rw [find_recordSessionInterest]
      split
      · exact Option.some_ne_none true
      · exact hw
  | removeSessionWants ses ks =>
      refine h.sim (s.sim.removeSessionWants ses ks) fun ses' w hw => ?_
      rw [find_removeSessionWants]
      split
      · exact fun hn => hw (Option.map_eq_none_iff.mp hn)
      · exact hw
  | receiveFrom p haves dontHaves =>
      refine ⟨h.freeing, fun c hc => ?_⟩
      rcases (mem_receiveFrom haves dontHaves).mp hc with hc | ⟨w, hw, rfl⟩
      · exact h.noStray c hc
      · exact hok w hw
  | cancelSessionWants ses wants =>
      have hremove := h.remove (r := s.sim.removeSessionInterested ses wants)
        fun ses' w hw => returned_or_left wants hw
      rw [perform, sections, run, List.foldl_cons, List.foldl_cons, List.foldl_nil, step, step,
        h.freeing]
      exact hremove
  | removeSession ses o =>
      have hremove := h.remove (r := s.sim.removeSession ses o)
        fun ses' w hw => returned_or_left _ hw
      rw [perform, sections, run, List.foldl_cons, List.foldl_cons, List.foldl_nil, step, step,
        h.freeing]
      exact hremove

/-- What somebody who is not interested is told is known from then on. -/
theorem not_noStray_perform (op : Op) (hok : ¬ s.Solicited op) : ¬ (s.perform op).NoStray := by
  cases op with
  | receiveFrom p haves dontHaves =>
      intro h
      refine hok fun w hw => ?_
      exact h w.cid ((mem_receiveFrom haves dontHaves).mpr (.inr ⟨w, hw, rfl⟩))
  | recordSessionInterest ses ks => exact absurd trivial hok
  | removeSessionWants ses ks => exact absurd trivial hok
  | cancelSessionWants ses wants => exact absurd trivial hok
  | removeSession ses o => exact absurd trivial hok

end

/-- **The presence manager holds only what somebody is interested in**, all along a run of whole
operations, just when every message of it is about CIDs that somebody is interested in. -/
theorem always_noStray_iff (ops : List Op) :
    Always perform NoStray start ops ↔ Meets perform Solicited start ops := by
  have hstep : ∀ s op, Tidy s → Solicited s op → Tidy (perform s op) :=
    fun s op h hok => tidy_perform op h hok
  refine always_iff_meets (fun s h => h.noStray) hstep
    (fun s op _ hno => not_noStray_perform op hno) ops ⟨rfl, fun c hc => ?_⟩
  exact absurd hc (AList.notMem_empty c)

/-- A peer sends a HAVE that nobody asked for, and a DONT_HAVE when the session that asked has
gone: both stay, and nobody is interested in anything. -/
theorem stray_after_messages :
    let w : Want := ⟨⟨[1]⟩, [65]⟩
    let x : Want := ⟨⟨[2]⟩, []⟩
    let p : PeerID := ⟨[7]⟩
    let ops : List Op := [.receiveFrom p [x] [], .recordSessionInterest 1 [w],
      .removeSession 1 .stored, .receiveFrom p [] [w]]
    (run perform start ops).bpm.presence.keys = [⟨[1]⟩, ⟨[2]⟩] ∧
      (∀ ses w, (run perform start ops).sim.find ses w = none) ∧
      ¬ Always perform NoStray start ops := by
  intro w x p ops
  have hkeys : (run perform start ops).bpm.presence.keys = [⟨[1]⟩, ⟨[2]⟩] := by decide
  have hwants : (run perform start ops).sim.wants.keys = [] := by decide
  have hnone : ∀ ses w, (run perform start ops).sim.find ses w = none := by
    intro ses w'
    by_contra hw'
    have hmem := AList.mem_keys.mp (mem_wants_of_find hw')
    rw [hwants] at hmem
    cases hmem
  refine ⟨hkeys, hnone, fun h => ?_⟩
  have hmem : (⟨[1]⟩ : Cid) ∈ (run perform start ops).bpm.presence := by
    rw [AList.mem_keys, hkeys]
    exact List.mem_cons_self
  obtain ⟨ses, w', -, hw'⟩ := h.last ⟨[1]⟩ hmem
  exact hw' (hnone ses w')

end Tracking

end BitswapAuth
