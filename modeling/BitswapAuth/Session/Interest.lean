/-
# `BitswapAuth.Session.Interest` — which session wants which block

`SessionInterestManager`: for every want the sessions that have asked for it, each
with a flag.  The flag is up while the session expects the block and goes down
once it has it; the entry stays, so that the session hears of later messages
about the want.  What is asked of the manager comes down to one question, the
entry of a session for a want (`find`), and each operation is described by its
effect on that.
-/
import BitswapAuth.PeerManager.Manager

namespace BitswapAuth

open Lib

/-- `SessionInterestManager`. -/
structure SessionInterestManager where
  wants : GoMap Want (GoMap SessionID Bool)

namespace SessionInterestManager

/-- `New`. -/
def new : SessionInterestManager := ⟨∅⟩

/-- The sessions with an entry for the want. -/
def sessionsOf (sim : SessionInterestManager) (w : Want) : GoMap SessionID Bool :=
  (sim.wants.lookup w).getD ∅

/-- The entry of a session for a want: whether the session still wants the block. -/
def find (sim : SessionInterestManager) (ses : SessionID) (w : Want) : Option Bool :=
  (sim.sessionsOf w).lookup ses

/-- One round of `RecordSessionInterest`. -/
def record (ses : SessionID) (sim : SessionInterestManager) (w : Want) : SessionInterestManager :=
  ⟨sim.wants.insert w ((sim.sessionsOf w).insert ses true)⟩

/-- `RecordSessionInterest`. -/
def recordSessionInterest (sim : SessionInterestManager) (ses : SessionID) (ks : List Want) :
    SessionInterestManager :=
  ks.foldl (record ses) sim

/-- One round of the loops that drop a session's entry: a want that no session is
interested in any more is deleted. -/
def drop (ses : SessionID) (s : SessionInterestManager × List Want) (w : Want) :
    SessionInterestManager × List Want :=
  match s.1.wants.lookup w with
  | none => s
  | some sessions =>
      let left : GoMap SessionID Bool := sessions.erase ses
      if GoMap.len left = 0 then (⟨s.1.wants.erase w⟩, s.2 ++ [w])
      else (⟨s.1.wants.insert w left⟩, s.2)

/-- `RemoveSession`, with the wants that no session is interested in any more. -/
def removeSession (sim : SessionInterestManager) (ses : SessionID) (o : RangeOrder) :
    SessionInterestManager × List Want :=
  (o.range sim.wants.keys).foldl (drop ses) (sim, [])

/-- One round of `RemoveSessionWants`. -/
def lower (ses : SessionID) (sim : SessionInterestManager) (c : Want) : SessionInterestManager :=
  if sim.find ses c = some true then ⟨sim.wants.insert c ((sim.sessionsOf c).insert ses false)⟩
  else sim

/-- `RemoveSessionWants`. -/
def removeSessionWants (sim : SessionInterestManager) (ses : SessionID) (ks : List Want) :
    SessionInterestManager :=
  ks.foldl (lower ses) sim

/-- `RemoveSessionInterested`, with the wants that no session is interested in any
more. -/
def removeSessionInterested (sim : SessionInterestManager) (ses : SessionID) (ws : List Want) :
    SessionInterestManager × List Want :=
  ws.foldl (drop ses) (sim, [])

/-- `FilterSessionInterested`, for one of its sets of keys. -/
def filterSessionInterested (sim : SessionInterestManager) (ses : SessionID) (ks : List Want) :
    List Want :=
  ks.filter fun c => (sim.find ses c).isSome

/-- Some session wants the block. -/
def isWanted (sim : SessionInterestManager) (w : Want) : Bool :=
  (sim.sessionsOf w).keys.any fun ses => sim.find ses w = some true

/-- `SplitWantedUnwanted`. -/
def splitWantedUnwanted (sim : SessionInterestManager) (blks : List AuthBlock) :
    List AuthBlock × List AuthBlock :=
  let wantedKs := GoSet.ofList ((blks.map AuthBlock.want).filter sim.isWanted)
  blks.partition fun b => wantedKs.has b.want

/-- `InterestedSessions`. -/
def interestedSessions (sim : SessionInterestManager) (blks haves dontHaves : List Want)
    (o : RangeOrder) : List SessionID :=
  let ks := blks ++ haves ++ dontHaves
  o.range (GoSet.ofList (ks.flatMap fun c => (sim.sessionsOf c).keys)).keys

/-! ## The entry of a session for a want -/

variable {sim : SessionInterestManager} {ses s : SessionID} {w c : Want}

theorem find_record : (sim.record ses c).find s w =
    if s = ses ∧ w = c then some true else sim.find s w := by
  unfold record find sessionsOf
  rw [GoMap.lookup_insert_ite]
  by_cases hw : w = c
  · subst hw
    rw [if_pos rfl, Option.getD_some, GoMap.lookup_insert_ite]
    by_cases hs : s = ses <;> simp [hs]
  · simp [hw]

theorem find_recordSessionInterest : ∀ (ks : List Want) (sim : SessionInterestManager),
    (sim.recordSessionInterest ses ks).find s w =
      if s = ses ∧ w ∈ ks then some true else sim.find s w
  | [], sim => by simp [recordSessionInterest]
  | c :: ks, sim => by
      show ((sim.record ses c).recordSessionInterest ses ks).find s w = _
      rw [find_recordSessionInterest ks, find_record]
      by_cases hs : s = ses
      · by_cases hw : w = c <;> simp [hs, hw]
      · simp [hs]

theorem find_lower : (sim.lower ses c).find s w =
    if s = ses ∧ w = c then (sim.find s w).map fun _ => false else sim.find s w := by
  rw [lower]
  split
  · rename_i h
    unfold find sessionsOf
    rw [GoMap.lookup_insert_ite]
    by_cases hw : w = c
    · subst hw
      rw [if_pos rfl, Option.getD_some, GoMap.lookup_insert_ite]
      by_cases hs : s = ses
      · subst hs
        have h' : ((sim.wants.lookup w).getD ∅).lookup s = some true := h
        simp [h']
      · simp [hs]
    · simp [hw]
  · rename_i h
    split
    · rename_i he
      obtain ⟨rfl, rfl⟩ := he
      cases hf : sim.find s w with
      | none => rfl
      | some b =>
          cases b with
          | true => exact absurd hf h
          | false => rfl
    · rfl

theorem find_removeSessionWants : ∀ (ks : List Want) (sim : SessionInterestManager),
    (sim.removeSessionWants ses ks).find s w =
      if s = ses ∧ w ∈ ks then (sim.find s w).map fun _ => false else sim.find s w
  | [], sim => by simp [removeSessionWants]
  | c :: ks, sim => by
      show ((sim.lower ses c).removeSessionWants ses ks).find s w = _
      rw [find_removeSessionWants ks, find_lower]
      by_cases hs : s = ses
      · by_cases hw : w = c
        · subst hw
          cases sim.find s w <;> simp [hs]
        · simp [hs, hw]
      · simp [hs]

theorem find_drop (r : SessionInterestManager × List Want) : (drop ses r c).1.find s w =
    if s = ses ∧ w = c then none else r.1.find s w := by
  rw [drop]
  split
  · rename_i h
    split
    · rename_i he
      rw [he.2]
      simp [find, sessionsOf, h]
    · rfl
  · rename_i sessions h
    have hfind : ∀ (m : GoMap SessionID Bool), (AList.erase ses m).lookup s =
        if s = ses then none else m.lookup s := fun m => GoMap.lookup_erase_ite
    have hsame : ∀ m : GoMap Want (GoMap SessionID Bool), (m.lookup w).getD ∅ =
        (if w = c then AList.erase ses sessions else (r.1.wants.lookup w).getD ∅) →
        ((m.lookup w).getD ∅).lookup s = if s = ses ∧ w = c then none else r.1.find s w := by
      intro m hm
      rw [hm]
      by_cases hw : w = c
      · subst hw
        rw [if_pos rfl, hfind]
        by_cases hs : s = ses <;> simp [hs, find, sessionsOf, h]
      · simp [hw, find, sessionsOf]
    dsimp only
    split
    · rename_i h0
      refine hsame _ ?_
      rw [GoMap.lookup_erase_ite]
      split
      · have hempty : AList.erase ses sessions = ∅ := by
          have hk : (AList.erase ses sessions).keys = [] := List.length_eq_zero_iff.mp h0
          refine AList.ext (List.map_eq_nil_iff.mp hk)
        rw [hempty]
        rfl
      · rfl
    · refine hsame _ ?_
      rw [GoMap.lookup_insert_ite]
      split <;> rfl

theorem find_foldl_drop : ∀ (ws : List Want) (r : SessionInterestManager × List Want),
    (ws.foldl (drop ses) r).1.find s w = if s = ses ∧ w ∈ ws then none else r.1.find s w
  | [], r => by simp
  | c :: ws, r => by
      rw [List.foldl_cons, find_foldl_drop ws, find_drop]
      by_cases hs : s = ses
      · by_cases hw : w = c <;> simp [hs, hw]
      · simp [hs]

/-- The want is there, and no other session has an entry for it. -/
def OnlyFor (sim : SessionInterestManager) (ses : SessionID) (w : Want) : Prop :=
  w ∈ sim.wants ∧ ∀ s, s ≠ ses → sim.find s w = none

/-- A round of the loops deletes and returns its want if no other session has an entry
for it. -/
theorem mem_drop (ses : SessionID) (r : SessionInterestManager × List Want) (w c : Want) :
    (w ∈ (drop ses r c).2 ↔ w ∈ r.2 ∨ (w = c ∧ r.1.OnlyFor ses c)) ∧
      (w ∈ (drop ses r c).1.wants ↔ w ∈ r.1.wants ∧ ¬ (w = c ∧ r.1.OnlyFor ses c)) := by
  rw [drop]
  split
  · rename_i h
    have hno : ¬ r.1.OnlyFor ses c := fun ho => AList.lookup_eq_none.mp h ho.1
    simp [hno]
  · rename_i sessions h
    have hmem : c ∈ r.1.wants := GoMap.mem_of_lookup h
    have hleft : GoMap.len (AList.erase ses sessions) = 0 ↔ r.1.OnlyFor ses c := by
      rw [GoMap.len_eq_zero, OnlyFor, and_iff_right hmem]
      refine forall_congr' fun s => ?_
      rw [AList.mem_erase, not_and, find, sessionsOf, h, Option.getD_some, AList.lookup_eq_none]
    dsimp only
    split
    · rename_i h0
      simp [hleft.mp h0, and_comm]
    · rename_i h0
      have hno := mt hleft.mpr h0
      simp only [hno, and_false, or_false, not_false_eq_true, and_true, AList.mem_insert, true_and]
      exact ⟨fun hw => hw.elim (fun hw => hw ▸ hmem) id, .inr⟩

/-- **The wants returned are those that nobody else has an entry for.** -/
theorem mem_foldl_drop : ∀ (ws : List Want) (r : SessionInterestManager × List Want),
    w ∈ (ws.foldl (drop ses) r).2 ↔
      w ∈ r.2 ∨ (w ∈ ws ∧ r.1.OnlyFor ses w)
  | [], r => by simp
  | c :: ws, r => by
      obtain ⟨hret, hstay⟩ := mem_drop ses r w c
      have honly : (drop ses r c).1.OnlyFor ses w ↔
          r.1.OnlyFor ses w ∧ ¬ (w = c ∧ r.1.OnlyFor ses c) := by
        have hfind : (∀ s, s ≠ ses → (drop ses r c).1.find s w = none) ↔
            ∀ s, s ≠ ses → r.1.find s w = none := by
          refine forall_congr' fun s => forall_congr' fun hs => ?_
          rw [find_drop, if_neg fun h => hs h.1]
        exact (and_congr hstay hfind).trans and_right_comm
      rw [List.foldl_cons, mem_foldl_drop ws, hret, honly, List.mem_cons]
      by_cases hw : w = c
      · subst hw
        simp only [true_and, and_not_self, and_false, or_false, true_or]
      · simp [hw]

/-- `RemoveSession` visits every want, so that no entry of the session is left. -/
theorem find_removeSession (o : RangeOrder) : (sim.removeSession ses o).1.find s w =
    if s = ses then none else sim.find s w := by
  refine (find_foldl_drop _ (sim, [])).trans ?_
  by_cases hs : s = ses
  · by_cases hw : w ∈ o.range sim.wants.keys
    · rw [if_pos ⟨hs, hw⟩, if_pos hs]
    · have hno : sim.wants.lookup w = none :=
        AList.lookup_eq_none.mpr fun h => hw (RangeOrder.mem_range.mpr (AList.mem_keys.mpr h))
      rw [if_neg fun h => hw h.2, if_pos hs, find, sessionsOf, hno]
      rfl
  · rw [if_neg fun h => hs h.1, if_neg hs]

theorem mem_removeSession {o : RangeOrder} :
    w ∈ (sim.removeSession ses o).2 ↔ sim.OnlyFor ses w := by
  refine (mem_foldl_drop _ (sim, [])).trans ⟨fun h => ?_, fun h => .inr ⟨?_, h⟩⟩
  · exact (h.resolve_left List.not_mem_nil).2
  · exact RangeOrder.mem_range.mpr (AList.mem_keys.mpr h.1)

theorem find_removeSessionInterested (ws : List Want) :
    (sim.removeSessionInterested ses ws).1.find s w =
      if s = ses ∧ w ∈ ws then none else sim.find s w :=
  find_foldl_drop ws (sim, [])

theorem mem_removeSessionInterested {ws : List Want} :
    w ∈ (sim.removeSessionInterested ses ws).2 ↔ w ∈ ws ∧ sim.OnlyFor ses w := by
  refine (mem_foldl_drop ws (sim, [])).trans ⟨fun h => ?_, .inr⟩
  exact h.resolve_left List.not_mem_nil

theorem mem_wants_of_find (h : sim.find s w ≠ none) : w ∈ sim.wants := by
  by_contra hno
  rw [find, sessionsOf, AList.lookup_eq_none.mpr hno] at h
  exact h rfl

theorem mem_filterSessionInterested {ks : List Want} :
    w ∈ sim.filterSessionInterested ses ks ↔ w ∈ ks ∧ sim.find ses w ≠ none := by
  rw [filterSessionInterested]
  rw [List.mem_filter, Option.isSome_iff_ne_none]

theorem mem_interestedSessions {blks haves dontHaves : List Want} {o : RangeOrder} :
    ses ∈ sim.interestedSessions blks haves dontHaves o ↔
      ∃ w ∈ blks ++ haves ++ dontHaves, sim.find ses w ≠ none := by
  rw [interestedSessions]
  rw [RangeOrder.mem_range]
  show ses ∈ GoSet.ofList _ ↔ _
  rw [GoSet.mem_ofList, List.mem_flatMap]
  refine exists_congr fun w => and_congr_right fun _ => ?_
  rw [find]
  rw [ne_eq, AList.lookup_eq_none, not_not]
  exact AList.mem_keys.symm

/-! ## The blocks that are wanted -/

/-- Some session has the want flagged as wanted. -/
def Flagged (sim : SessionInterestManager) (w : Want) : Prop := ∃ ses, sim.find ses w = some true

theorem isWanted_iff_flagged {w : Want} : sim.isWanted w = true ↔ sim.Flagged w := by
  rw [isWanted, List.any_eq_true]
  constructor
  · rintro ⟨ses, -, h⟩
    exact ⟨ses, by simpa using h⟩
  · rintro ⟨ses, h⟩
    exact ⟨ses, AList.mem_keys.mp (GoMap.mem_of_lookup h), by simpa using h⟩

instance (sim : SessionInterestManager) (w : Want) : Decidable (sim.Flagged w) :=
  decidable_of_iff _ isWanted_iff_flagged

/-- The wanted blocks are those whose want is flagged, in order. -/
theorem fst_splitWantedUnwanted (blks : List AuthBlock) :
    (sim.splitWantedUnwanted blks).1 = blks.filter fun b => sim.Flagged b.want := by
  rw [splitWantedUnwanted, List.partition_eq_filter_filter]
  refine List.filter_congr fun b hb => ?_
  rw [Bool.eq_iff_iff, GoSet.has_eq_true, GoSet.mem_ofList, List.mem_filter, decide_eq_true_iff,
    isWanted_iff_flagged]
  exact and_iff_right (List.mem_map_of_mem hb)

end SessionInterestManager

end BitswapAuth
