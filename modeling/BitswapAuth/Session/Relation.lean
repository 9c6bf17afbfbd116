/-
# `BitswapAuth.Session.Relation` — the interest manager as a relation

What `SessionInterestManager` is for: a relation between sessions and wants, which
says of a session and a want that the session wants the block, or that it is only
interested in hearing of it, or nothing.  Here that relation is written down as a
function (`Interests`), with the operations as a client would describe them:

    RecordSessionInterest    the session wants the keys
    RemoveSessionWants       what it has of the keys, it is only interested in
    RemoveSessionInterested  it has nothing of the keys
    RemoveSession            it has nothing

The manager keeps it as a map from wants to maps from sessions to flags, and a want
that is left without a session is deleted (`Represents`).  `implements`: after any
operations the map is the relation, the keys that a removal returns are those that
nobody has any more, and the queries answer what the relation says.
-/
import BitswapAuth.Lib.Run
import BitswapAuth.Session.Interest

namespace BitswapAuth

open Lib

/-- What a session has of a want: it wants the block, or is interested in it. -/
inductive Interest where
  | wanted
  | interested
  deriving DecidableEq

/-- The flag the manager stores for it. -/
def Interest.flag : Interest → Bool
  | .wanted => true
  | .interested => false

/-- The relation: what each session has of each want. -/
abbrev Interests := SessionID → Want → Option Interest

namespace Interests

/-- Nobody has anything. -/
def none : Interests := fun _ _ => .none

def recordSessionInterest (r : Interests) (ses : SessionID) (ks : List Want) : Interests :=
  fun s w => if s = ses ∧ w ∈ ks then some .wanted else r s w

def removeSessionWants (r : Interests) (ses : SessionID) (ks : List Want) : Interests :=
  fun s w => if s = ses ∧ w ∈ ks then (r s w).map fun _ => .interested else r s w

def removeSessionInterested (r : Interests) (ses : SessionID) (ws : List Want) : Interests :=
  fun s w => if s = ses ∧ w ∈ ws then .none else r s w

def removeSession (r : Interests) (ses : SessionID) : Interests :=
  fun s w => if s = ses then .none else r s w

/-- The session has something of the want. -/
def Has (r : Interests) (ses : SessionID) (w : Want) : Prop := r ses w ≠ .none

instance (r : Interests) (ses : SessionID) (w : Want) : Decidable (r.Has ses w) :=
  inferInstanceAs (Decidable (r ses w ≠ .none))

/-- Some session wants the block. -/
def Wanted (r : Interests) (w : Want) : Prop := ∃ ses, r ses w = some .wanted

end Interests

namespace SessionInterestManager

/-- The operations; the order is that of the range of `RemoveSession`. -/
inductive Op where
  | recordSessionInterest (ses : SessionID) (ks : List Want)
  | removeSessionWants (ses : SessionID) (ks : List Want)
  | removeSessionInterested (ses : SessionID) (ws : List Want)
  | removeSession (ses : SessionID) (o : RangeOrder)

def step (sim : SessionInterestManager) : Op → SessionInterestManager
  | .recordSessionInterest ses ks => sim.recordSessionInterest ses ks
  | .removeSessionWants ses ks => sim.removeSessionWants ses ks
  | .removeSessionInterested ses ws => (sim.removeSessionInterested ses ws).1
  | .removeSession ses o => (sim.removeSession ses o).1

end SessionInterestManager

def Interests.step (r : Interests) : SessionInterestManager.Op → Interests
  | .recordSessionInterest ses ks => r.recordSessionInterest ses ks
  | .removeSessionWants ses ks => r.removeSessionWants ses ks
  | .removeSessionInterested ses ws => r.removeSessionInterested ses ws
  | .removeSession ses _ => r.removeSession ses

namespace SessionInterestManager

variable {sim : SessionInterestManager} {ses s : SessionID} {w c : Want}

/-! ## No want without a session -/

/-- Every want that is kept has a session. -/
def Populated (sim : SessionInterestManager) : Prop := ∀ w ∈ sim.wants, ∃ s, sim.find s w ≠ none

/-- A round that keeps the entries of a want it keeps. -/
theorem Populated.of_find {sim' : SessionInterestManager} (h : sim.Populated)
    (hmem : ∀ w ∈ sim'.wants, w ∈ sim.wants ∨ ∃ s, sim'.find s w ≠ none)
    (hfind : ∀ s w, sim.find s w ≠ none → sim'.find s w ≠ none) : sim'.Populated := by
  intro w hw
  rcases hmem w hw with hold | hnew
  · obtain ⟨s, hs⟩ := h w hold
    exact ⟨s, hfind s w hs⟩
  · exact hnew

theorem populated_record (h : sim.Populated) : (sim.record ses c).Populated := by
  refine h.of_find (fun w hw => ?_) fun s w hs => ?_
  · rcases (AList.mem_insert _).mp hw with rfl | hw
    · refine .inr ⟨ses, ?_⟩
      rw [find_record, if_pos ⟨rfl, rfl⟩]
      exact Option.some_ne_none true
    · exact .inl hw
  · rw [find_record]
    split
    · exact Option.some_ne_none true
    · exact hs

theorem populated_lower (h : sim.Populated) : (sim.lower ses c).Populated := by
  refine h.of_find (fun w hw => .inl ?_) fun s w hs => ?_
  · rw [lower] at hw
    split at hw
    · rename_i hc
      rcases (AList.mem_insert _).mp hw with rfl | hw
      · exact mem_wants_of_find (by rw [hc]; exact Option.some_ne_none true)
      · exact hw
    · exact hw
  · rw [find_lower]
    split
    · exact fun hn => hs (Option.map_eq_none_iff.mp hn)
    · exact hs

/-- A removal deletes its want if nobody else has it, and else leaves the others in. -/
theorem populated_drop {r : SessionInterestManager × List Want} (h : r.1.Populated) :
    (drop ses r c).1.Populated := by
  intro w hw
  obtain ⟨hmem, hnot⟩ := (mem_drop ses r w c).2.mp hw
  by_cases hc : w = c
  · subst hc
    obtain ⟨s, hs, hf⟩ : ∃ s, s ≠ ses ∧ r.1.find s w ≠ none := by
      by_contra hno
      refine hnot ⟨rfl, hmem, fun s hs => ?_⟩
      by_contra hf
      exact hno ⟨s, hs, hf⟩
    refine ⟨s, ?_⟩
    rw [find_drop, if_neg fun h => hs h.1]
    exact hf
  · obtain ⟨s, hs⟩ := h w hmem
    refine ⟨s, ?_⟩
    rw [find_drop, if_neg fun h => hc h.2]
    exact hs

theorem populated_foldl_drop (ws : List Want) {r : SessionInterestManager × List Want}
    (h : r.1.Populated) : (ws.foldl (drop ses) r).1.Populated := by
  have hstep : ∀ (r : SessionInterestManager × List Want) (c : Want), r.1.Populated →
      (drop ses r c).1.Populated := fun _ _ h => populated_drop h
  exact run_invariant hstep ws h

theorem populated_step (h : sim.Populated) (op : Op) : (sim.step op).Populated := by
  cases op with
  | recordSessionInterest ses ks =>
      have hstep : ∀ (sim : SessionInterestManager) (c : Want), sim.Populated →
          (record ses sim c).Populated := fun _ _ h => populated_record h
      exact run_invariant hstep ks h
  | removeSessionWants ses ks =>
      have hstep : ∀ (sim : SessionInterestManager) (c : Want), sim.Populated →
          (lower ses sim c).Populated := fun _ _ h => populated_lower h
      exact run_invariant hstep ks h
  | removeSessionInterested ses ws => exact populated_foldl_drop ws h
  | removeSession ses o => exact populated_foldl_drop _ h

/-! ## The keys a removal returns -/

/-- What is returned is deleted, and nothing is returned twice. -/
theorem nodup_foldl_drop (ws : List Want) {r : SessionInterestManager × List Want}
    (h : r.2.Nodup ∧ ∀ w ∈ r.2, w ∉ r.1.wants) :
    (ws.foldl (drop ses) r).2.Nodup ∧
      ∀ w ∈ (ws.foldl (drop ses) r).2, w ∉ (ws.foldl (drop ses) r).1.wants := by
  have hstep : ∀ (r : SessionInterestManager × List Want) (c : Want),
      (r.2.Nodup ∧ ∀ w ∈ r.2, w ∉ r.1.wants) →
        (drop ses r c).2.Nodup ∧ ∀ w ∈ (drop ses r c).2, w ∉ (drop ses r c).1.wants := by
    rintro r c ⟨hnd, hout⟩
    refine ⟨?_, fun w hw hw' => ?_⟩
    · rw [drop]
      split
      · exact hnd
      · rename_i sessions hc
        dsimp only
        split
        · refine List.Nodup.append hnd (List.nodup_singleton c) fun w hw hw' => ?_
          cases List.mem_singleton.mp hw'
          exact hout c hw (GoMap.mem_of_lookup hc)
        · exact hnd
    · obtain ⟨hmem, hnot⟩ := (mem_drop ses r w c).2.mp hw'
      rcases (mem_drop ses r w c).1.mp hw with hw | ⟨rfl, honly⟩
      · exact hout w hw hmem
      · exact hnot ⟨rfl, honly⟩
  exact run_invariant hstep ws h

theorem Populated.onlyFor_iff (h : sim.Populated) :
    sim.OnlyFor ses w ↔ sim.find ses w ≠ none ∧ ∀ s, s ≠ ses → sim.find s w = none := by
  constructor
  · rintro ⟨hmem, hother⟩
    refine ⟨fun hnone => ?_, hother⟩
    obtain ⟨s, hs⟩ := h w hmem
    by_cases hses : s = ses
    · exact hs (hses ▸ hnone)
    · exact hs (hother s hses)
  · rintro ⟨hses, hother⟩
    exact ⟨mem_wants_of_find hses, hother⟩

/-! ## The map is the relation -/

/-- The map has the flag of what each session has of each want, and keeps no want without
a session. -/
structure Represents (sim : SessionInterestManager) (r : Interests) : Prop where
  find : ∀ s w, sim.find s w = (r s w).map Interest.flag
  populated : ∀ w sessions, sim.wants.lookup w = some sessions → sessions.len ≠ 0

theorem populated_iff : sim.Populated ↔
    ∀ w sessions, sim.wants.lookup w = some sessions → sessions.len ≠ 0 := by
  have hfind : ∀ {w sessions s}, sim.wants.lookup w = some sessions →
      (sim.find s w ≠ none ↔ s ∈ sessions) := by
    intro w sessions s h
    rw [SessionInterestManager.find, sessionsOf, h, Option.getD_some, ne_eq, AList.lookup_eq_none,
      not_not]
  constructor
  · intro h w sessions hl hlen
    obtain ⟨s, hs⟩ := h w (GoMap.mem_of_lookup hl)
    exact GoMap.len_eq_zero.mp hlen s ((hfind hl).mp hs)
  · intro h w hw
    obtain ⟨sessions, hl⟩ := GoMap.mem_iff_lookup.mp hw
    obtain ⟨s, hs⟩ := GoMap.len_ne_zero.mp (h w sessions hl)
    exact ⟨s, (hfind hl).mpr hs⟩

variable {r : Interests}

theorem Represents.has (h : sim.Represents r) : sim.find s w ≠ none ↔ r.Has s w := by
  rw [h.find, ne_eq, Option.map_eq_none_iff]
  rfl

theorem Represents.flagged (h : sim.Represents r) : sim.Flagged w ↔ r.Wanted w := by
  refine exists_congr fun s => ?_
  rw [h.find]
  cases hr : r s w with
  | none => simp
  | some i => cases i <;> simp [Interest.flag]

theorem represents_new : new.Represents Interests.none :=
  ⟨fun _ _ => rfl, fun w sessions h => by simp [new] at h⟩

theorem represents_step (h : sim.Represents r) (op : Op) :
    (sim.step op).Represents (r.step op) := by
  refine ⟨fun s w => ?_, populated_iff.mp (populated_step (populated_iff.mpr h.populated) op)⟩
  have hf := h.find s w
  cases op with
  | recordSessionInterest ses ks =>
      rw [step, Interests.step, find_recordSessionInterest, Interests.recordSessionInterest]
      split
      · rfl
      · exact hf
  | removeSessionWants ses ks =>
      rw [step, Interests.step, find_removeSessionWants, Interests.removeSessionWants, hf]
      split
      · cases r s w <;> rfl
      · rfl
  | removeSessionInterested ses ws =>
      rw [step, Interests.step, find_removeSessionInterested, Interests.removeSessionInterested]
      split
      · rfl
      · exact hf
  | removeSession ses o =>
      rw [step, Interests.step, find_removeSession, Interests.removeSession]
      split
      · rfl
      · exact hf

/-- Nobody but the session has the want, as the relation says it after a removal. -/
theorem Represents.onlyFor (h : sim.Represents r) {r' : Interests} (hses : r' ses w = .none)
    (hother : ∀ s, s ≠ ses → r' s w = r s w) :
    sim.OnlyFor ses w ↔ r.Has ses w ∧ ∀ s, ¬ r'.Has s w := by
  rw [(populated_iff.mpr h.populated).onlyFor_iff, h.has]
  refine and_congr_right fun _ => forall_congr' fun s => ?_
  by_cases hs : s = ses
  · subst hs
    simp [Interests.Has, hses]
  · rw [Interests.Has, hother s hs, h.find, Option.map_eq_none_iff]
    simp [hs]

theorem snd_splitWantedUnwanted (blks : List AuthBlock) :
    (sim.splitWantedUnwanted blks).2 = blks.filter fun b => ¬ sim.Flagged b.want := by
  rw [splitWantedUnwanted, List.partition_eq_filter_filter]
  refine List.filter_congr fun b hb => ?_
  rw [Bool.eq_iff_iff, decide_eq_true_iff, Function.comp_apply, Bool.not_eq_true',
    GoSet.has_eq_false, GoSet.mem_ofList, List.mem_filter, isWanted_iff_flagged]
  exact not_congr (and_iff_right (List.mem_map_of_mem hb))

open Classical in
/-- What the relation prescribes: the map is the relation; a removal returns, each once,
the keys that the session had and nobody has afterwards; the queries return those of the
keys, the sessions and the blocks that the relation says, in the order they came in. -/
structure Implements (sim : SessionInterestManager) (r : Interests) : Prop where
  represents : sim.Represents r
  removeSessionInterested : ∀ ses ws, (sim.removeSessionInterested ses ws).2.Nodup ∧
    ∀ w, w ∈ (sim.removeSessionInterested ses ws).2 ↔
      w ∈ ws ∧ r.Has ses w ∧ ∀ s, ¬ (r.removeSessionInterested ses ws).Has s w
  removeSession : ∀ ses o, (sim.removeSession ses o).2.Nodup ∧
    ∀ w, w ∈ (sim.removeSession ses o).2 ↔ r.Has ses w ∧ ∀ s, ¬ (r.removeSession ses).Has s w
  filterSessionInterested : ∀ ses (ksets : List (List Want)),
    ksets.map (sim.filterSessionInterested ses) = ksets.map (List.filter fun w => r.Has ses w)
  interestedSessions : ∀ blks haves dontHaves o,
    (sim.interestedSessions blks haves dontHaves o).Nodup ∧
    ∀ ses, ses ∈ sim.interestedSessions blks haves dontHaves o ↔
      ∃ w ∈ blks ++ haves ++ dontHaves, r.Has ses w
  splitWantedUnwanted : ∀ blks, sim.splitWantedUnwanted blks =
    (blks.filter fun b => r.Wanted b.want, blks.filter fun b => ¬ r.Wanted b.want)

theorem Represents.answers (h : sim.Represents r) : sim.Implements r where
  represents := h
  removeSessionInterested ses ws := by
    refine ⟨(nodup_foldl_drop ws ⟨List.nodup_nil, fun w hw => absurd hw List.not_mem_nil⟩).1,
      fun w => ?_⟩
    rw [mem_removeSessionInterested]
    refine and_congr_right fun hw => h.onlyFor (if_pos ⟨rfl, hw⟩) fun s hs => ?_
    exact if_neg fun he => hs he.1
  removeSession ses o := by
    refine ⟨(nodup_foldl_drop _ ⟨List.nodup_nil, fun w hw => absurd hw List.not_mem_nil⟩).1,
      fun w => ?_⟩
    rw [mem_removeSession]
    exact h.onlyFor (if_pos rfl) fun s hs => if_neg hs
  filterSessionInterested ses ksets := by
    refine List.map_congr_left fun ks _ => List.filter_congr fun w _ => ?_
    rw [Bool.eq_iff_iff, Option.isSome_iff_ne_none, decide_eq_true_iff, h.has]
  interestedSessions blks haves dontHaves o := by
    refine ⟨RangeOrder.nodup_range.mpr (AList.keys_nodup _), fun ses => ?_⟩
    rw [mem_interestedSessions]
    exact exists_congr fun w => and_congr_right fun _ => h.has
  splitWantedUnwanted blks := by
    refine Prod.ext ?_ ?_
    · rw [fst_splitWantedUnwanted]
      exact List.filter_congr fun b _ => decide_eq_decide.mpr h.flagged
    · rw [snd_splitWantedUnwanted]
      exact List.filter_congr fun b _ => decide_eq_decide.mpr (not_congr h.flagged)

/-- **The interest manager implements the relation**, after any operations. -/
theorem implements (ops : List Op) :
    (run step new ops).Implements (run Interests.step Interests.none ops) := by
  have hstep : ∀ (sim : SessionInterestManager) (r : Interests) (op : Op), sim.Represents r →
      (sim.step op).Represents (r.step op) := fun _ _ op h => represents_step h op
  exact (run_simulates hstep ops represents_new).answers

end SessionInterestManager

end BitswapAuth
