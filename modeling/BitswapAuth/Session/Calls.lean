/-
# `BitswapAuth.Session.Calls` — the wants a turn of the sender names

Of the calls `onChange` makes on others, what is sent names tracked wants only,
and a cancel names wants that a change of the batch cancels.
-/
import BitswapAuth.Session.Turn

namespace BitswapAuth

open Lib

namespace SessionWantSender

/-- All wants in the sets are of a kind. -/
def AllWants.Among (P : Want → Prop) (aw : AllWants) : Prop :=
  ∀ p snd, aw.lookup p = some snd → ∀ w, w ∈ snd.wantBlocks ∨ w ∈ snd.wantHaves → P w

variable {P : Want → Prop} {aw : AllWants}

theorem AllWants.Among.forPeer (h : AllWants.Among P aw) (p : PeerID) (w : Want)
    (hw : w ∈ (aw.forPeer p).wantBlocks ∨ w ∈ (aw.forPeer p).wantHaves) :
    P w := by
  unfold AllWants.forPeer GoMap.getD at hw
  cases hl : aw.lookup p with
  | none =>
      rw [hl] at hw
      exact absurd hw (by simp)
  | some snd =>
      rw [hl] at hw
      exact h p snd hl w hw

theorem AllWants.Among.insert (h : AllWants.Among P aw) {p : PeerID} {snd : WantSets}
    (hs : ∀ w, w ∈ snd.wantBlocks ∨ w ∈ snd.wantHaves → P w) :
    AllWants.Among P (AList.insert p snd aw) := by
  intro q snd' hq
  rcases GoMap.lookup_insert_eq_some.mp hq with ⟨-, rfl⟩ | ⟨-, hq⟩
  · exact hs
  · exact h q snd' hq

theorem AllWants.Among.addWantBlock (h : AllWants.Among P aw) {w : Want} (hw : P w) (p : PeerID) :
    AllWants.Among P (AllWants.addWantBlock w aw p) := by
  refine h.insert fun w' hw' => ?_
  rw [GoSet.mem_add, or_assoc] at hw'
  rcases hw' with rfl | hw'
  · exact hw
  · exact h.forPeer p w' hw'

theorem AllWants.Among.addWantHave (h : AllWants.Among P aw) {w : Want} (hw : P w) (p : PeerID) :
    AllWants.Among P (AllWants.addWantHave w aw p) := by
  refine h.insert fun w' hw' => ?_
  rw [GoSet.mem_add, or_left_comm] at hw'
  rcases hw' with rfl | hw'
  · exact hw
  · exact h.forPeer p w' hw'

theorem AllWants.Among.foldl_addWantHave {w : Want} (hw : P w) : ∀ (ps : List PeerID)
    {aw : AllWants}, AllWants.Among P aw →
    AllWants.Among P (ps.foldl (AllWants.addWantHave w) aw)
  | [], _, h => h
  | p :: ps, _, h => AllWants.Among.foldl_addWantHave hw ps (h.addWantHave hw p)

theorem among_nextWant (na : List PeerID) {s : SessionWantSender × AllWants} {w : Want} (hw : P w)
    (h : AllWants.Among P s.2) : AllWants.Among P (nextWant na s w).2 := by
  rw [nextWant]
  have hsend := h.foldl_addWantHave hw na
  split
  · exact h
  · dsimp only
    split
    · exact hsend
    · split
      · exact hsend
      · exact AllWants.Among.foldl_addWantHave hw _ (hsend.addWantBlock hw _)

theorem among_foldl_nextWant (na : List PeerID) : ∀ (l : List Want)
    {s : SessionWantSender × AllWants}, (∀ w ∈ l, P w) → AllWants.Among P s.2 →
    AllWants.Among P (l.foldl (nextWant na) s).2
  | [], _, _, h => h
  | w :: l, _, hl, h => among_foldl_nextWant na l (fun w' hw' => hl w' (List.mem_cons_of_mem w hw'))
      (among_nextWant na (hl w List.mem_cons_self) h)

/-- The wants a call of `onSend` names. -/
def sentBy : Effect → List Want
  | .onSend _ wantBlocks wantHaves => wantBlocks ++ wantHaves
  | _ => []

/-- The wants a call of `CancelSessionWants` names. -/
def cancelledBy : Effect → Option (List Want)
  | .cancelSessionWants ws => some ws
  | _ => none

/-- The wants that a call on the peer manager or on the session names. -/
def namedBy : Effect → List Want
  | .sendWants _ wantBlocks wantHaves | .onSend _ wantBlocks wantHaves => wantBlocks ++ wantHaves
  | .onPeersExhausted ws => ws
  | .cancelSessionWants _ | .registerSession _ | .signalUnavailable _ => []

theorem mem_namedBy_of_sentBy {e : Effect} {w : Want} (h : w ∈ sentBy e) : w ∈ namedBy e := by
  cases e with
  | onSend p bs hs => exact h
  | _ => exact absurd h List.not_mem_nil

/-- The call cancels nothing, and what it names is tracked. -/
def NamesTracked (sws : SessionWantSender) (e : Effect) : Prop :=
  (∀ w ∈ namedBy e, w ∈ sws.wants) ∧ cancelledBy e = none

theorem namesTracked_foldl_sendTo : ∀ (l : List (PeerID × WantSets))
    (s : SessionWantSender × List Effect),
    (∀ e ∈ l, ∀ w, w ∈ e.2.wantBlocks ∨ w ∈ e.2.wantHaves → w ∈ s.1.wants) →
    (∀ e ∈ s.2, s.1.NamesTracked e) → ∀ e ∈ (l.foldl sendTo s).2, s.1.NamesTracked e
  | [], _, _, h => h
  | e :: l, s, hl, h => by
      have he := hl e List.mem_cons_self
      refine namesTracked_foldl_sendTo l (sendTo s e)
        (fun e' he' => hl e' (List.mem_cons_of_mem e he')) fun c hc => ?_
      have hsets : ∀ w ∈ s.1.next.ranging e.2.wantBlocks.keys ++
          s.1.next.next.ranging ((s.1.getPiggybackWantHaves e.1 e.2.wantBlocks).foldl GoSet.add
            e.2.wantHaves).keys, w ∈ s.1.wants := by
        intro w hw
        rcases List.mem_append.mp hw with hw | hw
        · exact he w (.inl (mem_ranging.mp hw))
        · rcases (GoSet.mem_foldl_add _ _ w).mp (mem_ranging.mp hw) with hw | hw
          · exact he w (.inr hw)
          · exact mem_ranging.mp (List.mem_filter.mp hw).1
      rcases List.mem_append.mp hc with hc | hc
      · exact h c hc
      · rcases List.mem_cons.mp hc with rfl | hc
        · exact ⟨hsets, rfl⟩
        · obtain rfl := List.mem_singleton.mp hc
          exact ⟨hsets, rfl⟩

/-- The loop of `sendNextWants` tracks the same wants. -/
theorem mem_wants_foldl_nextWant (na : List PeerID) (l : List Want) (sws : SessionWantSender)
    (w : Want) : w ∈ (l.foldl (nextWant na) (sws.next, ∅)).1.wants ↔ w ∈ sws.wants := by
  have h := foldl_touch (fun s : SessionWantSender × AllWants => fun w => s.1.wants.lookup w)
    (fun _ wi => ask wi) (lookup_nextWant na) (fun _ wi => ask_ask wi) l (sws.next, ∅) w
  rw [GoMap.mem_iff_lookup, GoMap.mem_iff_lookup, h]
  split <;> simp [next]

theorem mem_wants_sendNextWants (na : List PeerID) (sws : SessionWantSender) (w : Want) :
    w ∈ (sws.sendNextWants na).1.wants ↔ w ∈ sws.wants := by
  rw [sendNextWants, (foldl_sendTo _ _).1]
  exact mem_wants_foldl_nextWant na _ sws w

/-- What is sent at the end of a turn is tracked. -/
theorem namesTracked_sendNextWants (na : List PeerID) (sws : SessionWantSender) :
    ∀ e ∈ (sws.sendNextWants na).2, (sws.sendNextWants na).1.NamesTracked e := by
  set l := sws.ranging sws.wants.keys with hl
  set s := l.foldl (nextWant na) (sws.next, ∅) with hs
  have hsame : ∀ w, w ∈ s.1.wants ↔ w ∈ sws.wants := mem_wants_foldl_nextWant na l sws
  have ham : AllWants.Among (· ∈ sws.wants) s.2 :=
    among_foldl_nextWant na l (fun w hw => mem_ranging.mp hw) fun p snd h => by simp at h
  have hwants : (sws.sendNextWants na).1.wants = s.1.wants :=
    (foldl_sendTo (s.1.ranging s.2.pairs) (s.1.next, [])).1
  have hsent : ∀ e ∈ (sws.sendNextWants na).2, s.1.next.NamesTracked e :=
    namesTracked_foldl_sendTo (s.1.ranging s.2.pairs) (s.1.next, []) (fun e he w hw =>
      (hsame w).mpr (ham e.1 e.2 (GoMap.mem_pairs.mp (mem_ranging.mp he)) w hw))
      fun e he => absurd he (by simp)
  intro e he
  rw [NamesTracked]
  rw [hwants]
  exact hsent e he

/-- The calls of the last pass send wants and tell the session of it. -/
theorem mem_calls_sendNextWants (na : List PeerID) (sws : SessionWantSender) :
    ∀ e ∈ (sws.sendNextWants na).2,
      ∃ p blks haves, e = .sendWants p blks haves ∨ e = .onSend p blks haves := by
  let I : SessionWantSender × List Effect → Prop := fun s => ∀ e ∈ s.2,
    ∃ p blks haves, e = .sendWants p blks haves ∨ e = .onSend p blks haves
  have hone : ∀ s i, I s → I (sendTo s i) := by
    intro s i h e he
    rcases List.mem_append.mp he with he | he
    · exact h e he
    · rcases List.mem_pair.mp he with rfl | rfl
      · exact ⟨_, _, _, .inl rfl⟩
      · exact ⟨_, _, _, .inr rfl⟩
  exact run_invariant hone _ fun e he => absurd he List.not_mem_nil

/-- The only call of the fourth pass. -/
theorem calls_processExhaustedWants {sws : SessionWantSender} {l : List Want} {e : Effect}
    (he : e ∈ (sws.processExhaustedWants l).2) : ∃ ws, e = .onPeersExhausted ws := by
  unfold processExhaustedWants at he
  dsimp only at he
  split at he
  · exact absurd he List.not_mem_nil
  · exact ⟨_, List.mem_singleton.mp he⟩

theorem calls_checkForExhaustedWants (bpm : BlockPresenceManager) (dh : List Want)
    (nu : List PeerID) (sws : SessionWantSender) :
    ∀ e ∈ (sws.checkForExhaustedWants bpm dh nu).2, ∃ ws, e = .onPeersExhausted ws := by
  obtain ⟨sws', l, heq, -⟩ := @exists_processExhaustedWants bpm dh nu sws
  rw [heq]
  exact fun e => calls_processExhaustedWants

theorem mem_calls_settle {bpm : BlockPresenceManager} {changes : List Change}
    {sws : SessionWantSender} {e : Effect} (he : e ∈ (sws.settle bpm changes).calls) :
    (∃ p, e = .registerSession p) ∨
      (∃ p ∈ ((sws.beforeUpdates bpm changes).processUpdates bpm (updatesOf changes)).2.2,
        e = .signalUnavailable p) ∨
      (∃ ws, e = .onPeersExhausted ws) ∨
      (changes.flatMap Change.cancel ≠ [] ∧
        e = .cancelSessionWants (changes.flatMap Change.cancel)) := by
  have hg : Gathers changes ⟨sws, ∅, [], [], []⟩ (sws.collect bpm changes) :=
    gathers_foldl_change changes _
  have hupdates : (sws.collect bpm changes).updates = updatesOf changes := hg.updates
  rw [settle] at he
  simp only [List.mem_append, List.mem_map] at he
  rcases he with ((⟨p, -, rfl⟩ | ⟨p, hp, rfl⟩) | he) | he
  · exact .inl ⟨p, rfl⟩
  · rw [hupdates] at hp
    exact .inr (.inl ⟨p, hp, rfl⟩)
  · exact .inr (.inr (.inl (calls_checkForExhaustedWants bpm _ _ _ e he)))
  · have hcancels : (sws.collect bpm changes).cancels = changes.flatMap Change.cancel := hg.cancels
    rw [hcancels] at he
    split at he
    · cases he
    · rename_i hne
      exact .inr (.inr (.inr ⟨fun h0 => hne (List.isEmpty_iff.mpr h0), List.mem_singleton.mp he⟩))

/-- The calls of the first four passes send nothing, and cancel what the batch
cancels. -/
theorem calls_settle (bpm : BlockPresenceManager) (changes : List Change)
    (sws : SessionWantSender) : ∀ e ∈ (sws.settle bpm changes).calls, sentBy e = [] ∧
    ∀ ws, cancelledBy e = some ws → ws ≠ [] ∧ ws = changes.flatMap Change.cancel := by
  intro e he
  rcases mem_calls_settle he with ⟨p, rfl⟩ | ⟨p, -, rfl⟩ | ⟨ws, rfl⟩ | ⟨hne, rfl⟩
  · exact ⟨rfl, fun ws h => by cases h⟩
  · exact ⟨rfl, fun ws h => by cases h⟩
  · exact ⟨rfl, fun ws h => by cases h⟩
  · refine ⟨rfl, fun ws h => ?_⟩
    obtain rfl : changes.flatMap Change.cancel = ws := Option.some.inj h
    exact ⟨hne, rfl⟩

/-! ## All that a turn names -/

/-- Only tracked wants are found to be exhausted. -/
theorem tracked_processExhaustedWants (l : List Want) (sws : SessionWantSender) :
    ∀ e ∈ (sws.processExhaustedWants l).2, ∀ w ∈ namedBy e,
      w ∈ (sws.processExhaustedWants l).1.wants := by
  intro e he w hw
  obtain ⟨ws, rfl⟩ := calls_processExhaustedWants he
  have hreport : w ∈ reportsOf (sws.processExhaustedWants l).2 := List.mem_flatMap.mpr ⟨_, he, hw⟩
  obtain ⟨hl, v, hv, -⟩ := (mem_reportsOf_processExhaustedWants sws l w).mp hreport
  rw [mem_wants_iff_view, view_processExhaustedWants, if_pos hl, hv]
  exact Option.some_ne_none _

theorem tracked_settle {bpm : BlockPresenceManager} {changes : List Change}
    {sws : SessionWantSender} {e : Effect} (he : e ∈ (sws.settle bpm changes).calls) :
    ∀ w ∈ namedBy e, w ∈ (sws.settle bpm changes).sws.wants := by
  -- only a report of exhausted wants names any
  have hcheck : ∀ (dh : List Want) (nu : List PeerID) (sws : SessionWantSender),
      ∀ e ∈ (sws.checkForExhaustedWants bpm dh nu).2, ∀ w ∈ namedBy e,
        w ∈ (sws.checkForExhaustedWants bpm dh nu).1.wants := by
    intro dh nu sws
    obtain ⟨sws', l, heq, -⟩ := @exists_processExhaustedWants bpm dh nu sws
    rw [heq]
    exact tracked_processExhaustedWants l sws'
  rw [settle] at he ⊢
  simp only [List.mem_append, List.mem_map] at he
  rcases he with ((⟨p, -, rfl⟩ | ⟨p, -, rfl⟩) | he) | he
  · exact fun w hw => absurd hw List.not_mem_nil
  · exact fun w hw => absurd hw List.not_mem_nil
  · exact hcheck _ _ _ e he
  · split at he
    · exact absurd he List.not_mem_nil
    · rw [List.mem_singleton.mp he]
      exact fun w hw => absurd hw List.not_mem_nil

/-- The calls of a turn: what is named is tracked, and what is cancelled is what the
batch cancels. -/
theorem named_onChange (bpm : BlockPresenceManager) (changes : List Change)
    (sws : SessionWantSender) : ∀ e ∈ (sws.onChange bpm changes).2,
    (∀ w ∈ namedBy e, w ∈ (sws.onChange bpm changes).1.wants) ∧
      ∀ ws, cancelledBy e = some ws → ws ≠ [] ∧ ws = changes.flatMap Change.cancel := by
  intro e he
  rcases onChange_cases bpm changes sws with ⟨-, sws', sent, hsend, hturn⟩ | ⟨-, hturn⟩
  · have hkeep := mem_wants_sendNextWants (sws.settle bpm changes).newlyAvailable
      (sws.settle bpm changes).sws
    have hnames := namesTracked_sendNextWants (sws.settle bpm changes).newlyAvailable
      (sws.settle bpm changes).sws
    rw [hsend] at hkeep hnames
    rw [hturn] at he ⊢
    rcases List.mem_append.mp he with he | he
    · refine ⟨fun w hw => ?_, (calls_settle bpm changes sws e he).2⟩
      exact (hkeep w).mpr (tracked_settle he w hw)
    · obtain ⟨hnamed, hno⟩ := hnames e he
      refine ⟨hnamed, fun ws h => ?_⟩
      rw [hno] at h
      cases h
  · rw [hturn] at he ⊢
    exact ⟨tracked_settle he, (calls_settle bpm changes sws e he).2⟩

/-- The calls of a turn: what is sent is tracked, and what is cancelled is what the
batch cancels. -/
theorem calls_onChange (bpm : BlockPresenceManager) (changes : List Change)
    (sws : SessionWantSender) : ∀ e ∈ (sws.onChange bpm changes).2,
    (∀ w ∈ sentBy e, w ∈ (sws.onChange bpm changes).1.wants) ∧
      ∀ ws, cancelledBy e = some ws → ws ≠ [] ∧ ws = changes.flatMap Change.cancel := by
  intro e he
  obtain ⟨hnamed, hcancel⟩ := named_onChange bpm changes sws e he
  exact ⟨fun w hw => hnamed w (mem_namedBy_of_sentBy hw), hcancel⟩

end SessionWantSender

end BitswapAuth
