/-
# `BitswapAuth.Session.Passes` — the passes of `onChange`, want by want

Each pass is read as a change of the views.  What it does to the view of a want
depends on the batch in few ways, and these are named here as predicates of the
changes alone: which wants are kept, which peers the batch speaks of last as
available or not (`lastWord`), which blocks it brings, and which peers it names
for a want.
-/
import BitswapAuth.Session.View

namespace BitswapAuth

open Lib

/-! ## What a batch says -/

/-- The word on availability in an update: one with blocks or HAVEs says that its
sender is available. -/
def Change.hints (ch : Change) : List (PeerID × Bool) :=
  if ch.update.sender ≠ .empty ∧ ch.update.signalsAvailable then [(ch.update.sender, true)] else []

/-- The word on availability in a signal. -/
def Change.signals (ch : Change) : List (PeerID × Bool) :=
  if ch.availability.target ≠ .empty then [(ch.availability.target, ch.availability.available)]
  else []

/-- The words of a change on availability, in the order they are taken. -/
def Change.words (ch : Change) : List (PeerID × Bool) := ch.hints ++ ch.signals

/-- The last word on a peer. -/
def lastWord (p : PeerID) : List (PeerID × Bool) → Option Bool
  | [] => none
  | e :: es => (lastWord p es).or (if e.1 = p then some e.2 else none)

theorem lastWord_append (p : PeerID) : ∀ xs ys : List (PeerID × Bool),
    lastWord p (xs ++ ys) = (lastWord p ys).or (lastWord p xs)
  | [], ys => by simp [lastWord]
  | e :: xs, ys => by simp [lastWord, lastWord_append p xs, Option.or_assoc]

theorem lookup_foldl_insert {p : PeerID} : ∀ (es : List (PeerID × Bool)) (m : GoMap PeerID Bool),
    (es.foldl (fun m e => m.insert e.1 e.2) m).lookup p = (lastWord p es).or (m.lookup p)
  | [], m => by simp [lastWord]
  | e :: es, m => by
      rw [List.foldl_cons, lookup_foldl_insert es, GoMap.lookup_insert_ite, lastWord,
        Option.or_assoc]
      congr 1
      by_cases h : p = e.1
      · simp [h]
      · simp [h, Ne.symm h]

/-- The last word of a batch on a peer. -/
def wordOn (changes : List Change) (p : PeerID) : Option Bool :=
  lastWord p (changes.flatMap Change.words)

/-- The updates of a batch that come from a peer. -/
def updatesOf (changes : List Change) : List Update :=
  (changes.map Change.update).filter fun upd => upd.sender ≠ .empty

/-- The blocks a batch brings. -/
def blocksOf (changes : List Change) : List Want := (updatesOf changes).flatMap Update.ks

/-- The wants that no change of the batch cancels. -/
def Kept (changes : List Change) (w : Want) : Prop := ∀ ch ∈ changes, w ∉ ch.cancel

/-- Whether a want is tracked once the adds and cancels of a batch are through. -/
def TrackedAfter (w : Want) : Prop → List Change → Prop
  | tracked, [] => tracked
  | tracked, ch :: changes => TrackedAfter w ((tracked ∨ w ∈ ch.add) ∧ w ∉ ch.cancel) changes

theorem trackedAfter_of_kept {w : Want} : ∀ {changes : List Change}, Kept changes w →
    TrackedAfter w True changes
  | [], _ => trivial
  | ch :: changes, h => by
      have hc : w ∉ ch.cancel := h ch List.mem_cons_self
      have ih := trackedAfter_of_kept fun ch' hch' => h ch' (List.mem_cons_of_mem ch hch')
      simpa [TrackedAfter, hc] using ih

/-- A want that is tracked after a batch was so before, or a change adds it. -/
theorem added_of_trackedAfter {w : Want} : ∀ {l : List Change} {P : Prop}, TrackedAfter w P l →
    P ∨ ∃ c ∈ l, w ∈ c.add
  | [], _, h => .inl h
  | c :: l, _, h => by
      rcases added_of_trackedAfter (l := l) h with h | ⟨c', hc', hw⟩
      · exact h.1.imp_right fun hw => ⟨c, List.mem_cons_self, hw⟩
      · exact .inr ⟨c', List.mem_cons_of_mem c hc', hw⟩

namespace SessionWantSender

variable {bpm : BlockPresenceManager}

/-! ## The first pass: new and cancelled wants -/

theorem view_updateWantBlockPresence (w : Want) (sws : SessionWantSender) (p : PeerID) (w' : Want) :
    (updateWantBlockPresence bpm w sws p).view w' =
      if w' = w then (sws.view w').map (·.see p (bpm.presenceOf p w'.cid)) else sws.view w' := by
  unfold updateWantBlockPresence view
  split
  · rename_i h
    split
    · rename_i hw; subst hw; simp [h]
    · rfl
  · rename_i wi h
    dsimp only
    rw [GoMap.lookup_insert_ite]
    split
    · rename_i hw
      subst hw
      have hpres : (wi.blockPresence.insert p (bpm.presenceOf p w'.cid)).lookup =
          Function.update wi.blockPresence.lookup p (some (bpm.presenceOf p w'.cid)) := by
        funext q
        rw [GoMap.lookup_insert_ite, Function.update_apply]
      simp [h, WantInfo.view, WantInfo.setPeerBlockPresence, View.see, hpres]
    · rfl

theorem view_foldl_updateWantBlockPresence (w : Want) : ∀ (ps : List PeerID)
    (sws : SessionWantSender) (w' : Want),
    (ps.foldl (updateWantBlockPresence bpm w) sws).view w' =
      if w' = w then
        (sws.view w').map fun v => ps.foldl (fun v p => v.see p (bpm.presenceOf p w'.cid)) v
      else sws.view w'
  | [], sws, w' => by simp
  | p :: ps, sws, w' => by
      rw [List.foldl_cons, view_foldl_updateWantBlockPresence w ps, view_updateWantBlockPresence]
      split
      · rw [Option.map_map]; rfl
      · rfl

/-- Looking up peers one by one, for a want that has no view of them yet. -/
theorem foldl_see_presence (c : Cid) (q : PeerID) : ∀ (ps : List PeerID) (v : View),
    (ps.foldl (fun v p => v.see p (bpm.presenceOf p c)) v).presence q =
      if q ∈ ps then some (bpm.presenceOf q c) else v.presence q
  | [], v => by simp
  | p :: ps, v => by
      rw [List.foldl_cons, foldl_see_presence c q ps]
      simp only [View.see, Function.update_apply, List.mem_cons]
      by_cases hp : q = p
      · subst hp; simp
      · simp [hp]

theorem foldl_see_sentTo (c : Cid) : ∀ (ps : List PeerID) (v : View),
    (ps.foldl (fun v p => v.see p (bpm.presenceOf p c)) v).sentTo = v.sentTo
  | [], _ => rfl
  | p :: ps, v => foldl_see_sentTo c ps (v.see p (bpm.presenceOf p c))

theorem foldl_see_exhausted (c : Cid) : ∀ (ps : List PeerID) (v : View), v.exhausted = false →
    (ps.foldl (fun v p => v.see p (bpm.presenceOf p c)) v).exhausted = false
  | [], _, h => h
  | p :: ps, v, h => foldl_see_exhausted c ps (v.see p (bpm.presenceOf p c)) (by simp [View.see, h])

theorem view_enterWant (sws : SessionWantSender) (w w' : Want) :
    (sws.enterWant w).next.view w' = if w' = w then some WantInfo.new.view else sws.view w' := by
  rw [enterWant, next, view]
  dsimp only
  rw [GoMap.lookup_insert_ite]
  split <;> rfl

theorem view_trackWant (sws : SessionWantSender) (w w' : Want) :
    (trackWant bpm sws w).view w' =
      if w' = w then some ((sws.view w').getD (.fresh bpm w'.cid sws.spm.peers))
      else sws.view w' := by
  rw [trackWant]
  split
  · rename_i h
    split
    · rename_i hw
      subst hw
      obtain ⟨v, hv⟩ := Option.ne_none_iff_exists'.mp (fun hn => view_eq_none.mp hn h)
      simp [hv]
    · rfl
  · rename_i h
    rw [view_foldl_updateWantBlockPresence, view_enterWant]
    split
    · rename_i hw
      subst hw
      rw [view_eq_none.mpr h, Option.getD_none, Option.map_some]
      refine congrArg some (View.ext ?_ (foldl_see_sentTo ..) (foldl_see_exhausted w'.cid _ _ rfl))
      funext q
      rw [foldl_see_presence]
      simp [View.fresh, AList.mem_keys, WantInfo.view, WantInfo.new]
    · rfl

theorem view_foldl_trackWant {peers : GoSet PeerID} : ∀ (ws : List Want) (sws : SessionWantSender)
    (_ : sws.spm.peers = peers) (w : Want),
    (ws.foldl (trackWant bpm) sws).view w =
      if w ∈ ws then some ((sws.view w).getD (.fresh bpm w.cid peers)) else sws.view w
  | [], sws, _, w => by simp
  | a :: ws, sws, hp, w => by
      have hp' := (Frame.of_aside (@aside_trackWant bpm sws a)).peers.trans hp
      rw [List.foldl_cons, view_foldl_trackWant ws _ hp', view_trackWant, hp]
      by_cases ha : w = a
      · subst ha; simp
      · simp [ha]

theorem view_foldl_untrackWant : ∀ (ws : List Want) (sws : SessionWantSender) (w : Want),
    (ws.foldl untrackWant sws).view w = if w ∈ ws then none else sws.view w
  | [], sws, w => by simp
  | a :: ws, sws, w => by
      have h1 : (sws.untrackWant a).view w = if w = a then none else sws.view w := by
        rw [untrackWant, view]
        rw [GoMap.lookup_erase_ite]
        split <;> rfl
      rw [List.foldl_cons, view_foldl_untrackWant ws, h1]
      by_cases ha : w = a
      · subst ha; simp
      · simp [ha]

/-- One change, as far as the wants go. -/
theorem view_change (s : Collected) (ch : Change) (w : Want) :
    (s.change bpm ch).sws.view w =
      if w ∈ ch.cancel then none
      else if w ∈ ch.add then some ((s.sws.view w).getD (.fresh bpm w.cid s.sws.spm.peers))
      else s.sws.view w := by
  have hsws : (s.change bpm ch).sws =
      ch.cancel.foldl untrackWant (ch.add.foldl (trackWant bpm) s.sws) := by
    rw [Collected.change]
    split <;> split <;> (try split) <;> rfl
  rw [hsws, view_foldl_untrackWant, view_foldl_trackWant _ _ rfl]

theorem mem_wants_iff_view {sws : SessionWantSender} {w : Want} :
    w ∈ sws.wants ↔ sws.view w ≠ none := by
  rw [ne_eq, view_eq_none, not_not]

theorem mem_wants_change (s : Collected) (ch : Change) (w : Want) :
    w ∈ (s.change bpm ch).sws.wants ↔ (w ∈ s.sws.wants ∨ w ∈ ch.add) ∧ w ∉ ch.cancel := by
  rw [mem_wants_iff_view, view_change, mem_wants_iff_view]
  by_cases hc : w ∈ ch.cancel <;> by_cases ha : w ∈ ch.add <;> simp [hc, ha]

/-- After the first pass a tracked want has the view it had, if nothing cancelled
it, and else a fresh one. -/
theorem view_foldl_change (w : Want) (peers : GoSet PeerID) : ∀ (changes : List Change)
    (s : Collected), s.sws.spm.peers = peers → ∀ v,
    ((changes.foldl (Collected.change bpm) s).sws.view w = some v ↔
      (Kept changes w ∧ s.sws.view w = some v) ∨
        (v = .fresh bpm w.cid peers ∧ ¬ (Kept changes w ∧ w ∈ s.sws.wants) ∧
          TrackedAfter w (w ∈ s.sws.wants) changes))
  | [], s, _, v => by
      by_cases hw : w ∈ s.sws.wants <;> simp [Kept, TrackedAfter, hw]
  | ch :: changes, s, hp, v => by
      have hkept : Kept (ch :: changes) w ↔ w ∉ ch.cancel ∧ Kept changes w := by
        simp [Kept]
      have hp' := (Frame.of_aside (@aside_change bpm s ch)).peers.trans hp
      rw [List.foldl_cons, view_foldl_change w peers changes (s.change bpm ch) hp', view_change, hp,
        propext (mem_wants_change s ch w), hkept, TrackedAfter]
      by_cases hc : w ∈ ch.cancel
      · simp [hc]
      · by_cases hw : w ∈ s.sws.wants
        · obtain ⟨v0, hv0⟩ := Option.ne_none_iff_exists'.mp (mem_wants_iff_view.mp hw)
          by_cases ha : w ∈ ch.add <;> simp [hc, hw, ha, hv0]
        · have hv0 := view_eq_none.mpr hw
          by_cases ha : w ∈ ch.add
          · have hk := @trackedAfter_of_kept w changes
            simp only [hc, ha, hw, hv0, if_true, if_false, Option.getD_none, Option.some.injEq,
              reduceCtorEq, and_false, false_or, or_true, not_false_eq_true, and_true, true_and]
            rw [eq_comm (a := View.fresh bpm w.cid peers)]
            tauto
          · simp [hc, hw, ha, hv0]

/-- What the first pass hands to the later ones. -/
structure Gathers (changes : List Change) (s s' : Collected) : Prop where
  availability : s'.availability =
    (changes.flatMap Change.words).foldl (fun m e => m.insert e.1 e.2) s.availability
  updates : s'.updates = s.updates ++ updatesOf changes
  cancels : s'.cancels = s.cancels ++ changes.flatMap Change.cancel
  registered : s'.registered = s.registered ++
    ((updatesOf changes).filter Update.signalsAvailable).map Update.sender

theorem gathers_change (s : Collected) (ch : Change) : Gathers [ch] s (s.change bpm ch) := by
  by_cases hs : ch.update.sender = .empty
  · by_cases ht : ch.availability.target = .empty <;>
      exact ⟨by simp [Collected.change, Change.words, Change.hints, Change.signals, hs, ht],
        by simp [Collected.change, updatesOf, hs, ht], by simp [Collected.change, hs, ht],
        by simp [Collected.change, updatesOf, hs, ht]⟩
  · by_cases ht : ch.availability.target = .empty <;> cases ha : ch.update.signalsAvailable <;>
      exact ⟨by simp [Collected.change, Change.words, Change.hints, Change.signals, hs, ht, ha],
        by simp [Collected.change, updatesOf, hs, ht, ha],
        by simp [Collected.change, hs, ht, ha],
        by simp [Collected.change, updatesOf, hs, ht, ha]⟩

theorem gathers_foldl_change : ∀ (changes : List Change) (s : Collected),
    Gathers changes s (changes.foldl (Collected.change bpm) s)
  | [], s => ⟨rfl, by simp [updatesOf], by simp, by simp [updatesOf]⟩
  | ch :: changes, s => by
      have h1 := @gathers_change bpm s ch
      have h2 := gathers_foldl_change changes (s.change bpm ch)
      have hcons : updatesOf (ch :: changes) = updatesOf [ch] ++ updatesOf changes := by
        simp only [updatesOf, List.map_cons, List.map_nil, ← List.filter_append]
        rfl
      refine ⟨?_, ?_, ?_, ?_⟩
      · rw [List.foldl_cons, h2.availability, h1.availability]
        simp
      · rw [List.foldl_cons, h2.updates, h1.updates, hcons, List.append_assoc]
      · rw [List.foldl_cons, h2.cancels, h1.cancels]
        simp
      · rw [List.foldl_cons, h2.registered, h1.registered, hcons]
        simp

/-! ## The second pass: peers come and go -/

theorem view_updateWantsPeerAvailability (p : PeerID) (isNowAvailable : Bool)
    (sws : SessionWantSender) (w : Want) :
    (updateWantsPeerAvailability bpm p isNowAvailable sws).view w = (sws.view w).map fun v =>
      if isNowAvailable then v.see p (bpm.presenceOf p w.cid) else v.drop p := by
  rw [updateWantsPeerAvailability]
  rw [foldl_touch view
    fun w v => if isNowAvailable then v.see p (bpm.presenceOf p w.cid) else v.drop p]
  · simp only [mem_ranging]
    split
    · rfl
    · rename_i hw
      rw [show sws.next.view w = none from view_eq_none.mpr hw, view_eq_none.mpr hw]
      rfl
  · intro s a k
    cases isNowAvailable with
    | true =>
        simp only [if_true]
        rw [view_updateWantBlockPresence]
    | false =>
        simp only [Bool.false_eq_true, if_false]
        unfold view next
        dsimp only
        rw [GoMap.lookup_modify]
        split
        · rename_i hk
          subst hk
          cases s.wants.lookup k with
          | none => rfl
          | some wi =>
              have hpres : (wi.blockPresence.erase p).lookup =
                  Function.update wi.blockPresence.lookup p none := by
                funext q
                rw [GoMap.lookup_erase_ite, Function.update_apply]
              simp [WantInfo.view, WantInfo.removePeer, View.drop, hpres]
        · rfl
  · intro k v
    cases isNowAvailable with
    | true => exact v.see_see p _
    | false => exact v.drop_drop p

/-- A peer that is not in the session and that the list has as available. -/
def Joins (sws : SessionWantSender) (l : List (PeerID × Bool)) (q : PeerID) : Prop :=
  (q, true) ∈ l ∧ q ∉ sws.spm.peers

/-- A peer of the session that the list has as unavailable. -/
def Leaves (sws : SessionWantSender) (l : List (PeerID × Bool)) (q : PeerID) : Prop :=
  (q, false) ∈ l ∧ q ∈ sws.spm.peers

/-- The peers of a list have come and gone. -/
structure Shifted (bpm : BlockPresenceManager) (l : List (PeerID × Bool)) (s s' : Shift) :
    Prop where
  peers : ∀ q, q ∈ s'.sws.spm.peers ↔
    s.sws.Joins l q ∨ (q ∈ s.sws.spm.peers ∧ ¬ s.sws.Leaves l q)
  swbt : s'.sws.swbt = s.sws.swbt
  session : s'.sws.sessionID = s.sws.sessionID
  view : ∀ w, Option.Rel (View.Became bpm w.cid (s.sws.Joins l) (s.sws.Leaves l) (s.sws.Leaves l))
    (s.sws.view w) (s'.sws.view w)
  unavailable : ∀ q, q ∈ s'.newlyUnavailable ↔ q ∈ s.newlyUnavailable ∨ s.sws.Leaves l q

theorem shifted_nil (s : Shift) : Shifted bpm [] s s where
  peers q := by simp [Joins, Leaves]
  swbt := rfl
  session := rfl
  view w := rel_refl (fun v => (View.Became.refl v).congr (by simp [Joins])
    (by simp [Leaves]) (by simp [Leaves])) _
  unavailable q := by simp [Leaves]

theorem shifted_same (s : Shift) {p : PeerID} {b : Bool} (h : p ∈ s.sws.spm.peers ↔ b = true) :
    Shifted bpm [(p, b)] s s := by
  have hj : ∀ q, ¬ s.sws.Joins [(p, b)] q := by
    rintro q ⟨hq, hn⟩
    obtain ⟨rfl, rfl⟩ := Prod.mk.injEq .. |>.mp (List.mem_singleton.mp hq)
    exact hn (h.mpr rfl)
  have hl : ∀ q, ¬ s.sws.Leaves [(p, b)] q := by
    rintro q ⟨hq, hn⟩
    obtain ⟨rfl, rfl⟩ := Prod.mk.injEq .. |>.mp (List.mem_singleton.mp hq)
    exact absurd (h.mp hn) (by simp)
  exact ⟨fun q => by simp [hj q, hl q], rfl, rfl,
    fun _ => rel_refl (fun v => (View.Became.refl v).congr (by simp [hj]) (by simp [hl])
      (by simp [hl])) _,
    fun q => by simp [hl q]⟩

theorem shifted_moved (s : Shift) {p : PeerID} {b : Bool} (h : p ∈ s.sws.spm.peers ↔ b = false) :
    Shifted bpm [(p, b)] s (s.peer bpm (p, b)) := by
  have hj : ∀ q, s.sws.Joins [(p, b)] q ↔ b = true ∧ q = p := fun q => by
    cases b <;> simp only [Joins, List.mem_singleton, Prod.mk.injEq] <;> simp_all
  have hl : ∀ q, s.sws.Leaves [(p, b)] q ↔ b = false ∧ q = p := fun q => by
    cases b <;> simp only [Leaves, List.mem_singleton, Prod.mk.injEq] <;> simp_all
  obtain ⟨spm, hspm, hpeers⟩ : ∃ spm,
      (if b then s.sws.spm.addPeer p else s.sws.spm.removePeer p) = (spm, true) ∧
        ∀ q, q ∈ spm.peers ↔
          (b = true ∧ q = p) ∨ (q ∈ s.sws.spm.peers ∧ ¬ (b = false ∧ q = p)) := by
    cases b with
    | true =>
        have hp : p ∉ s.sws.spm.peers := fun hp => absurd (h.mp hp) (by simp)
        exact ⟨_, SessionPeerManager.addPeer_of_notMem hp, fun q => by simp⟩
    | false =>
        exact ⟨_, SessionPeerManager.removePeer_of_mem (h.mpr rfl), fun q => by simp [and_comm]⟩
  set moved : SessionWantSender := { s.sws with spm := spm } with hm
  have hf := Frame.of_aside (@aside_updateWantsPeerAvailability bpm p b moved)
  have hs : s.peer bpm (p, b) =
      { sws := { updateWantsPeerAvailability bpm p b moved with
          peerConsecutiveDontHaves := (updateWantsPeerAvailability bpm p b
            moved).peerConsecutiveDontHaves.erase p }
        newlyAvailable := if b then s.newlyAvailable ++ [p] else s.newlyAvailable
        newlyUnavailable := if b then s.newlyUnavailable else s.newlyUnavailable ++ [p] } := by
    simp [Shift.peer, hspm, hm]
  rw [hs]
  refine ⟨fun q => ?_, hf.swbt, hf.session, fun w => ?_, fun q => ?_⟩
  · dsimp only
    rw [hf.peers, hj, hl]
    exact hpeers q
  · show Option.Rel _ (s.sws.view w) ((updateWantsPeerAvailability bpm p b moved).view w)
    rw [view_updateWantsPeerAvailability]
    show Option.Rel _ (s.sws.view w) ((s.sws.view w).map _)
    cases s.sws.view w with
    | none => exact .none
    | some v =>
        refine .some ?_
        cases b with
        | true => exact (View.Became.see v p).congr (by simp [hj]) (by simp [hl]) (by simp [hl])
        | false => exact (View.Became.drop v p).congr (by simp [hj]) (by simp [hl]) (by simp [hl])
  · cases b <;> simp [hl]

theorem shifted_peer (s : Shift) (p : PeerID) (b : Bool) :
    Shifted bpm [(p, b)] s (s.peer bpm (p, b)) := by
  by_cases h : p ∈ s.sws.spm.peers ↔ b = false
  · exact shifted_moved s h
  · have h' : p ∈ s.sws.spm.peers ↔ b = true := by
      cases b <;> simp_all
    have hs : s.peer bpm (p, b) = s := by
      cases b with
      | true => simp [Shift.peer, SessionPeerManager.addPeer_of_mem (h'.mpr rfl)]
      | false =>
          have hp : p ∉ s.sws.spm.peers := fun hp => absurd (h'.mp hp) (by simp)
          simp [Shift.peer, SessionPeerManager.removePeer_of_notMem hp]
    rw [hs]
    exact shifted_same s h'

theorem Shifted.cons {p : PeerID} {b : Bool} {l : List (PeerID × Bool)} {s s' s'' : Shift}
    (hp : p ∉ l.map Prod.fst) (h : Shifted bpm [(p, b)] s s') (h' : Shifted bpm l s' s'') :
    Shifted bpm ((p, b) :: l) s s'' := by
  have hne : ∀ q b', (q, b') ∈ l → q ≠ p := fun q b' hq he =>
    hp (he ▸ List.mem_map.mpr ⟨(q, b'), hq, rfl⟩)
  have hpeers : ∀ q, q ≠ p → (q ∈ s'.sws.spm.peers ↔ q ∈ s.sws.spm.peers) := fun q hq => by
    rw [h.peers]
    simp [Joins, Leaves, hq]
  have hj : ∀ q, s.sws.Joins ((p, b) :: l) q ↔ s.sws.Joins [(p, b)] q ∨ s'.sws.Joins l q := by
    intro q
    simp only [Joins, List.mem_cons, List.not_mem_nil, or_false]
    constructor
    · rintro ⟨hq | hq, hn⟩
      · exact .inl ⟨hq, hn⟩
      · exact .inr ⟨hq, fun hm => hn ((hpeers q (hne q _ hq)).mp hm)⟩
    · rintro (⟨hq, hn⟩ | ⟨hq, hn⟩)
      · exact ⟨.inl hq, hn⟩
      · exact ⟨.inr hq, fun hm => hn ((hpeers q (hne q _ hq)).mpr hm)⟩
  have hl : ∀ q, s.sws.Leaves ((p, b) :: l) q ↔ s.sws.Leaves [(p, b)] q ∨ s'.sws.Leaves l q := by
    intro q
    simp only [Leaves, List.mem_cons, List.not_mem_nil, or_false]
    constructor
    · rintro ⟨hq | hq, hn⟩
      · exact .inl ⟨hq, hn⟩
      · exact .inr ⟨hq, (hpeers q (hne q _ hq)).mpr hn⟩
    · rintro (⟨hq, hn⟩ | ⟨hq, hn⟩)
      · exact ⟨.inl hq, hn⟩
      · exact ⟨.inr hq, (hpeers q (hne q _ hq)).mp hn⟩
  refine ⟨fun q => ?_, h'.swbt.trans h.swbt, h'.session.trans h.session, fun w => ?_, fun q => ?_⟩
  · rw [h'.peers, h.peers, hj, hl]
    by_cases hjl : s'.sws.Joins l q
    · simp [hjl]
    · by_cases hll : s'.sws.Leaves l q
      · have hq : ¬ s.sws.Joins [(p, b)] q := fun hq =>
          hne q _ hll.1 (congrArg Prod.fst (List.mem_singleton.mp hq.1))
        simp [hjl, hll, hq]
      · simp [hjl, hll]
  · refine rel_trans (h.view w) (h'.view w) fun v v' v'' hb hb' => ?_
    refine (hb.trans hb' fun q hq hg => ?_).congr (fun q => (hj q).symm) (fun q => (hl q).symm)
      (fun q => (hl q).symm)
    exact hne q _ hg.1 (congrArg Prod.fst (List.mem_singleton.mp hq.1))
  · rw [h'.unavailable, h.unavailable, hl, or_assoc]

theorem shifted_foldl : ∀ (l : List (PeerID × Bool)) (s : Shift), (l.map Prod.fst).Nodup →
    Shifted bpm l s (l.foldl (Shift.peer bpm) s)
  | [], s, _ => shifted_nil s
  | (p, b) :: l, s, hnd => by
      obtain ⟨hp, hnd⟩ := List.nodup_cons.mp hnd
      exact (shifted_peer s p b).cons hp (shifted_foldl l _ hnd)

theorem shifted_processAvailability (availability : GoMap PeerID Bool) (sws : SessionWantSender) :
    Shifted bpm availability.pairs ⟨sws, [], []⟩ (sws.processAvailability bpm availability) := by
  have hperm := sws.ranging_perm availability.pairs
  have hnd : ((sws.ranging availability.pairs).map Prod.fst).Nodup := by
    rw [(hperm.map Prod.fst).nodup_iff, GoMap.map_fst_pairs]
    exact availability.keys_nodup
  have h := @shifted_foldl bpm _ ⟨sws.next, [], []⟩ hnd
  have hmem : ∀ e, e ∈ sws.ranging availability.pairs ↔ e ∈ availability.pairs :=
    fun e => hperm.mem_iff
  have hj : ∀ q, Joins sws (sws.ranging availability.pairs) q ↔ Joins sws availability.pairs q :=
    fun q => and_congr_left fun _ => hmem _
  have hl : ∀ q, Leaves sws (sws.ranging availability.pairs) q ↔ Leaves sws availability.pairs q :=
    fun q => and_congr_left fun _ => hmem _
  exact ⟨fun q => (h.peers q).trans (by rw [← hj, ← hl]; rfl), h.swbt, h.session,
    fun w => rel_trans (rel_refl (r := Eq) (fun _ => rfl) _) (h.view w)
      fun v v' v'' he hb => he ▸ hb.congr hj hl hl,
    fun q => (h.unavailable q).trans (by rw [← hl]; rfl)⟩

/-! ## The third pass: messages -/

theorem mem_items {f : Update → List Want} {updates : List Update} {q : PeerID} {w : Want} :
    (q, w) ∈ items f updates ↔ ∃ upd ∈ updates, upd.sender = q ∧ w ∈ f upd := by
  simp only [items, List.mem_flatMap, List.mem_map, Prod.mk.injEq]
  constructor
  · rintro ⟨upd, hu, w', hw, rfl, rfl⟩
    exact ⟨upd, hu, rfl, hw⟩
  · rintro ⟨upd, hu, rfl, hw⟩
    exact ⟨upd, hu, w, hw, rfl, rfl⟩

theorem view_receiveKey (p : PeerID) (sws : SessionWantSender) (c w : Want) :
    (receiveKey p sws c).view w = if w = c then none else sws.view w := by
  rw [receiveKey, view]
  dsimp only
  split
  · dsimp only
    rw [GoMap.lookup_erase_ite]
    split <;> rfl
  · rename_i hc
    split
    · rename_i hw
      rw [hw, AList.lookup_eq_none.mpr hc]
      rfl
    · rfl

theorem frame_receiveKey (p : PeerID) (sws : SessionWantSender) (c : Want) :
    Frame sws (receiveKey p sws c) := by
  have hp : (sws.spm.protectConnection p).peers = sws.spm.peers := by
    rw [SessionPeerManager.protectConnection]
    split <;> rfl
  rw [receiveKey]
  split
  · exact ⟨hp, rfl, rfl⟩
  · exact ⟨rfl, rfl, rfl⟩

theorem view_foldl_receiveKey : ∀ (l : List (PeerID × Want)) (sws : SessionWantSender) (w : Want),
    (l.foldl (fun sws i => receiveKey i.1 sws i.2) sws).view w =
      if w ∈ l.map Prod.snd then none else sws.view w
  | [], sws, w => by simp
  | i :: l, sws, w => by
      rw [List.foldl_cons, view_foldl_receiveKey l, view_receiveKey, List.map_cons]
      by_cases h : w = i.2
      · rw [if_pos h, if_pos (List.mem_cons.mpr (.inl h))]
        split <;> rfl
      · simp only [h, if_false, List.mem_cons, false_or]

theorem haveSentWantBlockTo_frame {sws sws' : SessionWantSender} (h : Frame sws sws') (p : PeerID)
    (w : Want) : sws'.haveSentWantBlockTo p w = sws.haveSentWantBlockTo p w := by
  unfold haveSentWantBlockTo
  rw [h.swbt]

theorem lookup_setWantSentTo (sws : SessionWantSender) (w : Want) (p : PeerID) (w' : Want) :
    (sws.setWantSentTo w p).wants.lookup w' =
      if w' = w then (sws.wants.lookup w').map fun wi => { wi with sentTo := p }
      else sws.wants.lookup w' := by
  rw [setWantSentTo, GoMap.lookup_modify]
  split
  · rename_i h; subst h; rfl
  · rfl

theorem view_setWantSentTo (sws : SessionWantSender) (w : Want) (p : PeerID) (w' : Want) :
    (sws.setWantSentTo w p).view w' =
      if w' = w then (sws.view w').map fun v => { v with sentTo := p } else sws.view w' := by
  rw [view, lookup_setWantSentTo]
  split
  · rw [view, Option.map_map, Option.map_map]
    rfl
  · rfl

/-- What a DONT_HAVE of the peer does to the view of its want. -/
def View.deny (bpm : BlockPresenceManager) (c : Cid) (q : PeerID) (sent : Bool) (v : View) : View :=
  if sent then (v.see q (bpm.presenceOf q c)).unsend q else v.see q (bpm.presenceOf q c)

theorem View.became_deny (c : Cid) (q : PeerID) (sent : Bool) (v : View) :
    View.Became bpm c (· = q) (fun _ => False) (fun p => p = q ∧ sent = true) v
      (View.deny bpm c q sent v) := by
  cases sent with
  | true =>
      exact ((View.Became.see v q).trans (View.Became.unsend _ q) (fun _ _ h => h)).congr
        (by simp) (by simp) (by simp)
  | false => exact (View.Became.see v q).congr (by simp) (by simp) (by simp)

theorem view_answerDontHave (w : Want) (sws : SessionWantSender) (q : PeerID) (w' : Want) :
    (answerDontHave bpm w sws q).view w' =
      if w' = w then (sws.view w').map (View.deny bpm w'.cid q (sws.haveSentWantBlockTo q w'))
      else sws.view w' := by
  have hu := @view_updateWantBlockPresence bpm w sws q
  have hs := haveSentWantBlockTo_frame (.of_aside (@aside_updateWantBlockPresence bpm w sws q)) q w
  rw [answerDontHave]
  rw [hs]
  by_cases hw : w' = w
  · subst hw
    rw [if_pos rfl]
    cases hsent : sws.haveSentWantBlockTo q w' with
    | false =>
        simp only [Bool.false_and, Bool.false_eq_true, if_false]
        rw [hu, if_pos rfl]
        rfl
    | true =>
        have hdeny : (sws.view w').map (View.deny bpm w'.cid q true) =
            ((updateWantBlockPresence bpm w' sws q).view w').map (·.unsend q) := by
          rw [hu, if_pos rfl, Option.map_map]
          rfl
        rw [hdeny, Bool.true_and]
        cases hl : (updateWantBlockPresence bpm w' sws q).wants.lookup w' with
        | none => simp [view, hl]
        | some wi =>
            by_cases hq : wi.sentTo = q
            · have hv : (updateWantBlockPresence bpm w' sws q).view w' = some wi.view :=
                view_eq_some.mpr ⟨wi, hl, rfl⟩
              rw [if_pos (by simp [hq]), view_setWantSentTo, if_pos rfl, hv]
              simp [View.unsend, WantInfo.view, hq]
            · simp [hl, hq, Ne.symm hq, view, View.unsend, WantInfo.view]
  · rw [if_neg hw]
    split
    · rw [view_setWantSentTo, if_neg hw, hu, if_neg hw]
    · rw [hu, if_neg hw]

theorem frame_countDontHave (q : PeerID) (s : Answers) : Frame s.sws (s.countDontHave q).sws := by
  rw [Answers.countDontHave]
  dsimp only
  split <;> exact ⟨rfl, rfl, rfl⟩

theorem view_countDontHave (q : PeerID) (s : Answers) (w : Want) :
    (s.countDontHave q).sws.view w = s.sws.view w := by
  rw [Answers.countDontHave]
  dsimp only
  split <;> rfl

/-- The items of a list have been answered: for a want whose block was not
received the senders of its items were seen, and those in `U` are not waited
for. -/
structure Heard (bpm : BlockPresenceManager) (blk : GoSet Want) (l : List (PeerID × Want))
    (U : PeerID → Want → Prop) (s s' : Answers) : Prop where
  frame : Frame s.sws s'.sws
  received : ∀ w ∈ blk, s'.sws.view w = s.sws.view w
  view : ∀ w, w ∉ blk → Option.Rel
    (View.Became bpm w.cid (fun q => (q, w) ∈ l) (fun _ => False) (fun q => (q, w) ∈ l ∧ U q w))
    (s.sws.view w) (s'.sws.view w)

theorem heard_nil {blk : GoSet Want} {U : PeerID → Want → Prop} (s : Answers) :
    Heard bpm blk [] U s s :=
  ⟨.refl _, fun _ _ => rfl, fun w _ => rel_refl (fun v => (View.Became.refl v).congr (by simp)
    (by simp) (by simp)) _⟩

theorem Heard.cons {blk : GoSet Want} {U : PeerID → Want → Prop} {i : PeerID × Want}
    {l : List (PeerID × Want)} {s s' s'' : Answers} (h : Heard bpm blk [i] U s s')
    (h' : Heard bpm blk l U s' s'') : Heard bpm blk (i :: l) U s s'' := by
  refine ⟨h.frame.trans h'.frame, fun w hw => (h'.received w hw).trans (h.received w hw),
    fun w hw => ?_⟩
  refine rel_trans (h.view w hw) (h'.view w hw) fun v v' v'' hb hb' => ?_
  refine (hb.trans hb' fun _ _ h => h).congr (fun q => ?_) (fun q => ?_) (fun q => ?_)
  · simp only [List.mem_cons, List.not_mem_nil, or_false]
  · simp
  · simp only [List.mem_cons, List.not_mem_nil, or_false]
    tauto

section

variable {blk : GoSet Want} {U : PeerID → Want → Prop} {q : PeerID} {w : Want} {s s' : Answers}

/-- An item for a want whose block was received. -/
theorem heard_received (hf : Frame s.sws s'.sws) (hw : w ∈ blk)
    (hv : ∀ w', s'.sws.view w' = s.sws.view w') : Heard bpm blk [(q, w)] U s s' := by
  refine ⟨hf, fun w' _ => hv w', fun w' hw' => ?_⟩
  have hne : w' ≠ w := fun he => hw' (he ▸ hw)
  rw [hv]
  exact rel_refl (fun v => (View.Became.refl v).congr (by simp [hne]) (by simp) (by simp [hne])) _

/-- An item for another want changes the view of that want. -/
theorem heard_one {f : Want → View → View} (hf : Frame s.sws s'.sws) (hw : w ∉ blk)
    (hv : ∀ w', s'.sws.view w' =
      if w' = w then (s.sws.view w').map (f w') else s.sws.view w')
    (hb : ∀ v, View.Became bpm w.cid (· = q) (fun _ => False) (fun p => p = q ∧ U p w) v (f w v)) :
    Heard bpm blk [(q, w)] U s s' := by
  refine ⟨hf, fun w' hw' => ?_, fun w' hw' => ?_⟩
  · have hne : w' ≠ w := fun he => hw (he ▸ hw')
    rw [hv, if_neg hne]
  · rw [hv]
    split
    · rename_i he
      subst he
      cases s.sws.view w' with
      | none => exact .none
      | some v => exact .some ((hb v).congr (by simp) (by simp) (by simp))
    · rename_i hne
      exact rel_refl (fun v => (View.Became.refl v).congr (by simp [hne]) (by simp)
        (by simp [hne])) _

end

theorem heard_onDontHave (blk : GoSet Want) (q : PeerID) (s : Answers) (w : Want) :
    Heard bpm blk [(q, w)] (fun p w => s.sws.haveSentWantBlockTo p w = true) s
      (s.onDontHave bpm blk q w) := by
  have hc := frame_countDontHave q s
  rw [Answers.onDontHave]
  by_cases hw : w ∈ blk
  · rw [if_pos (GoSet.has_eq_true.mpr hw)]
    exact heard_received hc hw (view_countDontHave q s)
  · rw [if_neg fun h => hw (GoSet.has_eq_true.mp h)]
    have hv := @view_answerDontHave bpm w (s.countDontHave q).sws q
    simp only [view_countDontHave, haveSentWantBlockTo_frame hc] at hv
    refine heard_one (hc.trans (.of_aside (aside_answerDontHave w _ q))) hw hv fun v => ?_
    refine (View.became_deny w.cid q _ v).congr (by simp) (by simp) fun p => ?_
    exact and_congr_right fun h => by rw [h]

theorem heard_onHave (blk : GoSet Want) (q : PeerID) (s : Answers) (w : Want) :
    Heard bpm blk [(q, w)] (fun _ _ => False) s (s.onHave bpm blk q w) := by
  rw [Answers.onHave]
  by_cases hw : w ∈ blk
  · rw [if_pos (GoSet.has_eq_true.mpr hw)]
    exact heard_received ⟨rfl, rfl, rfl⟩ hw fun _ => rfl
  · rw [if_neg fun h => hw (GoSet.has_eq_true.mp h)]
    have hf := Frame.of_aside (@aside_updateWantBlockPresence bpm w s.sws q)
    refine heard_one ⟨hf.peers, hf.swbt, hf.session⟩ hw
      (view_updateWantBlockPresence w s.sws q) fun v => ?_
    exact (View.Became.see v q).congr (by simp) (by simp) (by simp)

theorem heard_foldl_onDontHave (blk : GoSet Want) : ∀ (l : List (PeerID × Want)) (s : Answers),
    Heard bpm blk l (fun p w => s.sws.haveSentWantBlockTo p w = true) s
      (l.foldl (fun s i => s.onDontHave bpm blk i.1 i.2) s)
  | [], s => heard_nil s
  | i :: l, s => by
      have h1 := @heard_onDontHave bpm blk i.1 s i.2
      have ih := heard_foldl_onDontHave blk l (s.onDontHave bpm blk i.1 i.2)
      simp only [haveSentWantBlockTo_frame h1.frame] at ih
      exact h1.cons ih

theorem heard_foldl_onHave (blk : GoSet Want) : ∀ (l : List (PeerID × Want)) (s : Answers),
    Heard bpm blk l (fun _ _ => False) s (l.foldl (fun s i => s.onHave bpm blk i.1 i.2) s)
  | [], s => heard_nil s
  | i :: l, s => (heard_onHave blk i.1 s i.2).cons (heard_foldl_onHave blk l _)

theorem dontHaves_foldl_onDontHave {blk : GoSet Want} {w : Want} : ∀ (l : List (PeerID × Want))
    (s : Answers), w ∈ (l.foldl (fun s i => s.onDontHave bpm blk i.1 i.2) s).dontHaves ↔
      w ∈ s.dontHaves ∨ (w ∉ blk ∧ w ∈ l.map Prod.snd)
  | [], s => by simp
  | i :: l, s => by
      have hc : (s.countDontHave i.1).dontHaves = s.dontHaves := by
        rw [Answers.countDontHave]
        dsimp only
        split <;> rfl
      have h1 : w ∈ (s.onDontHave bpm blk i.1 i.2).dontHaves ↔
          w ∈ s.dontHaves ∨ (w ∉ blk ∧ w = i.2) := by
        rw [Answers.onDontHave]
        split
        · rename_i hi
          have hi := GoSet.has_eq_true.mp hi
          rw [hc]
          exact ⟨.inl, fun h => h.resolve_right fun h => h.1 (h.2 ▸ hi)⟩
        · rename_i hi
          have hi := fun h => hi (GoSet.has_eq_true.mpr h)
          rw [hc, List.mem_append, List.mem_singleton]
          exact or_congr_right ⟨fun h => ⟨h ▸ hi, h⟩, fun h => h.2⟩
      rw [List.foldl_cons, dontHaves_foldl_onDontHave l, h1, List.map_cons, List.mem_cons,
        or_assoc, ← and_or_left]

theorem dontHaves_foldl_onHave {blk : GoSet Want} : ∀ (l : List (PeerID × Want)) (s : Answers),
    (l.foldl (fun s i => s.onHave bpm blk i.1 i.2) s).dontHaves = s.dontHaves
  | [], _ => rfl
  | _ :: l, _ => dontHaves_foldl_onHave l _

end SessionWantSender

/-- The peer sends a DONT_HAVE for the want. -/
def Denies (updates : List Update) (w : Want) (q : PeerID) : Prop :=
  ∃ upd ∈ updates, upd.sender = q ∧ w ∈ upd.dontHaves

/-- The peer sends a HAVE for the want. -/
def Offers (updates : List Update) (w : Want) (q : PeerID) : Prop :=
  ∃ upd ∈ updates, upd.sender = q ∧ w ∈ upd.haves

namespace SessionWantSender

variable {bpm : BlockPresenceManager}

/-- The messages have been processed: the wants whose blocks came are done, and of
the others the peers that speak of them were seen. -/
structure Answered (bpm : BlockPresenceManager) (updates : List Update) (sws : SessionWantSender)
    (r : SessionWantSender × List Want × List PeerID) : Prop where
  frame : Frame sws r.1
  done : ∀ w ∈ updates.flatMap Update.ks, r.1.view w = none
  view : ∀ w, w ∉ updates.flatMap Update.ks → Option.Rel
    (View.Became bpm w.cid (fun q => Denies updates w q ∨ Offers updates w q) (fun _ => False)
      (fun q => Denies updates w q ∧ sws.haveSentWantBlockTo q w = true))
    (sws.view w) (r.1.view w)
  dontHaves : ∀ w, w ∈ r.2.1 ↔ w ∉ updates.flatMap Update.ks ∧ ∃ q, Denies updates w q

theorem answered_processUpdates (updates : List Update) (sws : SessionWantSender) :
    Answered bpm updates sws (sws.processUpdates bpm updates) := by
  set blk := GoSet.ofList (updates.flatMap Update.ks) with hblk
  set s₁ := (items Update.ks updates).foldl (fun sws i => receiveKey i.1 sws i.2) sws with hs₁
  have hf₁ : Frame sws s₁ :=
    Frame.foldl (fun s (i : PeerID × Want) => frame_receiveKey i.1 s i.2) _ _
  have hks : ∀ w, w ∈ (items Update.ks updates).map Prod.snd ↔ w ∈ updates.flatMap Update.ks := by
    intro w
    simp [items]
  have hv₁ : ∀ w, s₁.view w = if w ∈ updates.flatMap Update.ks then none else sws.view w := by
    intro w
    rw [hs₁, view_foldl_receiveKey]
    simp only [hks]
  have h₂ := @heard_foldl_onDontHave bpm blk (items Update.dontHaves updates) ⟨s₁, [], ∅⟩
  set s₂ : Answers := (items Update.dontHaves updates).foldl
    (fun s i => s.onDontHave bpm blk i.1 i.2) ⟨s₁, [], ∅⟩ with hs₂
  have h₃ := @heard_foldl_onHave bpm blk (items Update.haves updates) s₂
  refine ⟨(hf₁.trans (h₂.frame.trans h₃.frame)).trans ⟨rfl, rfl, rfl⟩, fun w hw => ?_,
    fun w hw => ?_, fun w => ?_⟩
  · have hb : w ∈ blk := GoSet.mem_ofList.mpr hw
    refine (h₃.received w hb).trans ((h₂.received w hb).trans ?_)
    exact (hv₁ w).trans (if_pos hw)
  · have hb : w ∉ blk := fun h => hw (GoSet.mem_ofList.mp h)
    have hw₁ : s₁.view w = sws.view w := (hv₁ w).trans (if_neg hw)
    rw [← hw₁]
    refine rel_trans (h₂.view w hb) (h₃.view w hb) fun v v' v'' hb₂ hb₃ => ?_
    refine (hb₂.trans hb₃ fun _ _ h => h).congr (fun q => ?_) (fun q => by simp) (fun q => ?_)
    · rw [mem_items, mem_items]
      rfl
    · rw [mem_items]
      simp only [and_false, or_false]
      rw [haveSentWantBlockTo_frame hf₁]
      rfl
  · have hd : (sws.processUpdates bpm updates).2.1 = s₂.dontHaves := dontHaves_foldl_onHave _ _
    rw [hd, hs₂, dontHaves_foldl_onDontHave]
    simp only [List.not_mem_nil, false_or, hblk, GoSet.mem_ofList, List.mem_map, Prod.exists,
      exists_eq_right, mem_items]
    rfl

/-! ## The fourth pass: wants that no peer has -/

/-- The view is as it was, except that the want is given up if `M`. -/
structure Judged (M : Prop) (v v' : View) : Prop where
  presence : v'.presence = v.presence
  sentTo : v'.sentTo = v.sentTo
  exhausted : v'.exhausted = true ↔ v.exhausted = true ∨ M

theorem view_markExhausted (s : SessionWantSender × List Want) (a w : Want) :
    (markExhausted s a).1.view w = if w = a then (s.1.view w).map View.exhaust else s.1.view w := by
  rw [markExhausted]
  split
  · rename_i ha
    split
    · rename_i hw
      rw [hw, view_eq_none.mpr (AList.lookup_eq_none.mp ha)]
      rfl
    · rfl
  · rename_i wi ha
    have hview : s.1.view a = some wi.view := view_eq_some.mpr ⟨wi, ha, rfl⟩
    split
    · rename_i he
      split
      · rename_i hw
        subst hw
        simp [hview, View.exhaust, WantInfo.view, he]
      · rfl
    · split
      · rename_i hw
        subst hw
        simp [view, ha, View.exhaust, WantInfo.view]
      · rename_i hw
        simp [view, hw]

theorem view_processExhaustedWants (sws : SessionWantSender) (l : List Want) (w : Want) :
    (sws.processExhaustedWants l).1.view w =
      if w ∈ l then (sws.view w).map View.exhaust else sws.view w :=
  foldl_touch (fun s : SessionWantSender × List Want => s.1.view) (fun _ v => v.exhaust)
    view_markExhausted (fun _ _ => rfl) l (sws, []) w

/-- The want is looked at, and every peer of the session is known not to have it;
without peers it is enough that one has just left. -/
def Marked (bpm : BlockPresenceManager) (dontHaves : List Want) (newlyUnavailable : List PeerID)
    (sws : SessionWantSender) (w : Want) : Prop :=
  (w ∈ dontHaves ∨ newlyUnavailable ≠ []) ∧
    (bpm.allDontHave sws.spm.peers.keys w.cid = true ∨
      (newlyUnavailable ≠ [] ∧ sws.spm.hasPeers = false))

/-- The check gives up the wants of a list; of those that are tracked these are the marked ones. -/
theorem exists_processExhaustedWants (dontHaves : List Want) (newlyUnavailable : List PeerID)
    (sws : SessionWantSender) : ∃ (sws' : SessionWantSender) (l : List Want),
      sws.checkForExhaustedWants bpm dontHaves newlyUnavailable = sws'.processExhaustedWants l ∧
        (∀ w, sws'.view w = sws.view w) ∧
        ∀ w, sws.view w ≠ none → (w ∈ l ↔ Marked bpm dontHaves newlyUnavailable sws w) := by
  simp only [checkForExhaustedWants, Marked]
  cases newlyUnavailable with
  | nil =>
      cases dontHaves with
      | nil => exact ⟨sws, [], rfl, fun _ => rfl, fun w _ => by simp⟩
      | cons d ds =>
          refine ⟨sws, _, rfl, fun _ => rfl, fun w _ => ?_⟩
          simp [BlockPresenceManager.allPeersDoNotHaveBlock]
  | cons p ps =>
      have hall : ∀ w, sws.view w ≠ none →
          w ∈ List.replicate sws.wants.len Want.undefined ++ sws.ranging sws.wants.keys :=
        fun w hw => List.mem_append_right _ (mem_ranging.mpr (mem_wants_iff_view.mpr hw))
      simp only [List.isEmpty_cons, Bool.and_false, Bool.false_eq_true, if_false]
      split
      · rename_i hp
        have hp : sws.spm.hasPeers = true := hp
        refine ⟨sws.next, _, rfl, fun _ => rfl, fun w hw => ?_⟩
        rw [BlockPresenceManager.allPeersDoNotHaveBlock, List.mem_filter, and_iff_right (hall w hw)]
        simp [next, hp]
      · rename_i hp
        have hp : ¬ sws.spm.hasPeers = true := hp
        refine ⟨sws.next, _, rfl, fun _ => rfl, fun w hw => iff_of_true (hall w hw) ?_⟩
        simp [hp]

theorem judged_checkForExhaustedWants (dontHaves : List Want) (newlyUnavailable : List PeerID)
    (sws : SessionWantSender) (w : Want) :
    Option.Rel (Judged (Marked bpm dontHaves newlyUnavailable sws w)) (sws.view w)
      ((sws.checkForExhaustedWants bpm dontHaves newlyUnavailable).1.view w) := by
  obtain ⟨sws', l, heq, hview, hmem⟩ :=
    exists_processExhaustedWants dontHaves newlyUnavailable sws
  rw [heq, view_processExhaustedWants, hview]
  cases hv : sws.view w with
  | none => split <;> exact .none
  | some v =>
      have hmarked := hmem w (hv ▸ Option.some_ne_none v)
      split
      · rename_i hw
        exact .some ⟨rfl, rfl, by simp [View.exhaust, hmarked.mp hw]⟩
      · rename_i hw
        exact .some ⟨rfl, rfl, by simp [mt hmarked.mpr hw]⟩

/-- The wants reported as exhausted in some calls. -/
def reportsOf (calls : List Effect) : List Want :=
  calls.flatMap fun
    | .onPeersExhausted ws => ws
    | _ => []

theorem reportsOf_append (xs ys : List Effect) :
    reportsOf (xs ++ ys) = reportsOf xs ++ reportsOf ys :=
  List.flatMap_append

/-- The wants that the loop puts on its list: those of `l` that are tracked and not given up
yet. -/
theorem mem_foldl_markExhausted {w : Want} : ∀ (l : List Want) (s : SessionWantSender × List Want),
    w ∈ (l.foldl markExhausted s).2 ↔
      w ∈ s.2 ∨ (w ∈ l ∧ ∃ v, s.1.view w = some v ∧ v.exhausted = false)
  | [], s => by simp
  | a :: l, s => by
      have hround : w ∈ (markExhausted s a).2 ↔
          w ∈ s.2 ∨ (w = a ∧ ∃ v, s.1.view w = some v ∧ v.exhausted = false) := by
        rw [markExhausted]
        split
        · rename_i ha
          have hno : ¬ (w = a ∧ ∃ v, s.1.view w = some v ∧ v.exhausted = false) := by
            rintro ⟨rfl, v, hv, -⟩
            rw [view_eq_none.mpr (AList.lookup_eq_none.mp ha)] at hv
            cases hv
          exact (or_iff_left hno).symm
        · rename_i wi ha
          have hview : s.1.view a = some wi.view := view_eq_some.mpr ⟨wi, ha, rfl⟩
          split
          · rename_i he
            have hno : ¬ (w = a ∧ ∃ v, s.1.view w = some v ∧ v.exhausted = false) := by
              rintro ⟨rfl, v, hv, hx⟩
              obtain rfl := Option.some.inj (hview.symm.trans hv)
              exact absurd (he.symm.trans hx) (by decide)
            exact (or_iff_left hno).symm
          · rename_i he
            rw [List.mem_append, List.mem_singleton]
            refine or_congr_right ⟨fun hw => ⟨hw, wi.view, hw ▸ hview, ?_⟩, And.left⟩
            exact Bool.eq_false_iff.mpr he
      rw [List.foldl_cons, mem_foldl_markExhausted l, hround, view_markExhausted, List.mem_cons]
      by_cases ha : w = a
      · -- what has been put on the list is not put there again
        have hno : ¬ ∃ v, (s.1.view w).map View.exhaust = some v ∧ v.exhausted = false := by
          rintro ⟨v, hv, hx⟩
          obtain ⟨v₀, -, rfl⟩ := Option.map_eq_some_iff.mp hv
          cases hx
        rw [if_pos ha]
        simp only [hno, and_false, or_false, eq_true ha, true_and, true_or]
      · rw [if_neg ha]
        simp only [eq_false ha, false_and, or_false, false_or]

theorem reportsOf_processExhaustedWants (sws : SessionWantSender) (l : List Want) :
    reportsOf (sws.processExhaustedWants l).2 = (l.foldl markExhausted (sws, [])).2 := by
  rw [processExhaustedWants]
  dsimp only
  split
  · rename_i h
    rw [List.isEmpty_iff.mp h]
    rfl
  · simp [reportsOf]

theorem mem_reportsOf_processExhaustedWants (sws : SessionWantSender) (l : List Want) (w : Want) :
    w ∈ reportsOf (sws.processExhaustedWants l).2 ↔
      w ∈ l ∧ ∃ v, sws.view w = some v ∧ v.exhausted = false := by
  rw [reportsOf_processExhaustedWants, mem_foldl_markExhausted]
  simp

/-- The wants that are reported: those that are found exhausted and were not given up. -/
theorem mem_reportsOf_checkForExhaustedWants (dontHaves : List Want)
    (newlyUnavailable : List PeerID) (sws : SessionWantSender) (w : Want) :
    w ∈ reportsOf (sws.checkForExhaustedWants bpm dontHaves newlyUnavailable).2 ↔
      (∃ v, sws.view w = some v ∧ v.exhausted = false) ∧
        Marked bpm dontHaves newlyUnavailable sws w := by
  obtain ⟨sws', l, heq, hview, hmem⟩ :=
    exists_processExhaustedWants dontHaves newlyUnavailable sws
  rw [heq, mem_reportsOf_processExhaustedWants, hview, and_comm]
  refine and_congr_right fun ⟨v, hv, _⟩ => hmem w ?_
  rw [hv]
  exact Option.some_ne_none v

/-! ## The fifth pass: sending -/

/-- The want once it is sent: to its best peer, unless it waits for one. -/
def ask (wi : WantInfo) : WantInfo :=
  { wi with sentTo := if wi.sentTo = .empty then wi.bestPeer else wi.sentTo }

theorem ask_ask (wi : WantInfo) : ask (ask wi) = ask wi := by
  unfold ask
  dsimp only
  split
  · rename_i h; rw [h]; simp
  · rename_i h; rw [if_neg h]

theorem lookup_nextWant (na : List PeerID) (s : SessionWantSender × AllWants) (a w : Want) :
    (nextWant na s a).1.wants.lookup w =
      if w = a then (s.1.wants.lookup w).map ask else s.1.wants.lookup w := by
  rw [nextWant]
  split
  · rename_i ha
    split
    · rename_i hw; rw [hw, ha]; rfl
    · rfl
  · rename_i wi ha
    dsimp only
    split
    · rename_i hs
      split
      · rename_i hw; rw [hw, ha]; simp [ask, hs]
      · rfl
    · rename_i hs
      have hs := not_not.mp hs
      split
      · rename_i hb
        split
        · rename_i hw
          subst hw
          have hask : ask wi = wi := by
            obtain ⟨m, st, bp, ex, hbest⟩ := wi
            simp only at hs hb
            subst hs hb
            rfl
          rw [ha, Option.map_some, hask]
        · rfl
      · refine (lookup_setWantSentTo s.1 a wi.bestPeer w).trans ?_
        split
        · rename_i hw; rw [hw, ha]; simp [ask, hs]
        · rfl

theorem wantBlocks_addWantHave (w : Want) (aw : AllWants) (q p : PeerID) :
    ((AllWants.addWantHave w aw q).forPeer p).wantBlocks =
      (aw.forPeer p).wantBlocks := by
  rw [AllWants.addWantHave, AllWants.forPeer, GoMap.getD]
  rw [GoMap.lookup_insert_ite]
  split
  · rename_i h; subst h; rfl
  · rfl

theorem wantBlocks_foldl_addWantHave (w : Want) (p : PeerID) : ∀ (qs : List PeerID) (aw : AllWants),
    ((qs.foldl (AllWants.addWantHave w) aw).forPeer p).wantBlocks =
      (aw.forPeer p).wantBlocks
  | [], _ => rfl
  | q :: qs, aw => by
      rw [List.foldl_cons, wantBlocks_foldl_addWantHave w p qs, wantBlocks_addWantHave]

theorem mem_wantBlocks_addWantBlock (w : Want) (aw : AllWants) (q p : PeerID) (w' : Want) :
    w' ∈ ((AllWants.addWantBlock w aw q).forPeer p).wantBlocks ↔
      (p = q ∧ w' = w) ∨ w' ∈ (aw.forPeer p).wantBlocks := by
  unfold AllWants.addWantBlock AllWants.forPeer GoMap.getD
  rw [GoMap.lookup_insert_ite]
  split
  · rename_i h; subst h; simp
  · rename_i h; simp [h]

/-- The sets of a peer are those it is paired with; a peer without a pair has empty ones. -/
theorem AllWants.exists_mem_pairs {aw : AllWants} {f : WantSets → GoSet Want} {p : PeerID}
    {w : Want} (hf : w ∉ f ⟨∅, ∅⟩) :
    (∃ e ∈ aw.pairs, e.1 = p ∧ w ∈ f e.2) ↔ w ∈ f (aw.forPeer p) := by
  simp only [Prod.exists, GoMap.mem_pairs, AllWants.forPeer, GoMap.getD]
  cases h : aw.lookup p with
  | none =>
      constructor
      · rintro ⟨q, snd, hq, rfl, -⟩
        rw [h] at hq
        cases hq
      · exact fun hw => absurd hw hf
  | some snd =>
      constructor
      · rintro ⟨q, snd', hq, rfl, hw⟩
        obtain rfl := Option.some.inj (h.symm.trans hq)
        exact hw
      · exact fun hw => ⟨p, snd, h, rfl, hw⟩

/-- The want is to be sent to the peer as a want-block. -/
def Asks (sws : SessionWantSender) (p : PeerID) (w : Want) : Prop :=
  p ≠ .empty ∧ ∃ wi, sws.wants.lookup w = some wi ∧ wi.sentTo = .empty ∧ wi.bestPeer = p

theorem mem_wantBlocks_nextWant (na : List PeerID) (s : SessionWantSender × AllWants) (a : Want)
    (p : PeerID) (w : Want) :
    w ∈ ((nextWant na s a).2.forPeer p).wantBlocks ↔
      w ∈ (s.2.forPeer p).wantBlocks ∨ (w = a ∧ s.1.Asks p w) := by
  have hnot : ∀ {P : Prop}, ¬ P → (w ∈ (s.2.forPeer p).wantBlocks ↔
      w ∈ (s.2.forPeer p).wantBlocks ∨ P) := fun h => by simp [h]
  rw [nextWant]
  split
  · rename_i ha
    refine hnot ?_
    rintro ⟨rfl, -, wi, hwi, -⟩
    rw [ha] at hwi
    exact absurd hwi (by simp)
  · rename_i wi ha
    dsimp only
    split
    · rename_i hs
      rw [wantBlocks_foldl_addWantHave]
      refine hnot ?_
      rintro ⟨rfl, -, wi', hwi', hs', -⟩
      exact hs (Option.some.inj (ha.symm.trans hwi') ▸ hs')
    · rename_i hs
      have hs := not_not.mp hs
      split
      · rename_i hb
        rw [wantBlocks_foldl_addWantHave]
        refine hnot ?_
        rintro ⟨rfl, hp, wi', hwi', -, hb'⟩
        obtain rfl := Option.some.inj (ha.symm.trans hwi')
        exact hp (hb' ▸ hb)
      · rename_i hb
        rw [wantBlocks_foldl_addWantHave, mem_wantBlocks_addWantBlock, wantBlocks_foldl_addWantHave,
          or_comm]
        refine or_congr_right ⟨?_, ?_⟩
        · rintro ⟨rfl, rfl⟩
          exact ⟨rfl, hb, wi, ha, hs, rfl⟩
        · rintro ⟨rfl, -, wi', hwi', -, hb'⟩
          obtain rfl := Option.some.inj (ha.symm.trans hwi')
          exact ⟨hb'.symm, rfl⟩

theorem mem_wantBlocks_foldl_nextWant (na : List PeerID) (p : PeerID) (w : Want) :
    ∀ (l : List Want) (s : SessionWantSender × AllWants), l.Nodup →
      (w ∈ ((l.foldl (nextWant na) s).2.forPeer p).wantBlocks ↔
        w ∈ (s.2.forPeer p).wantBlocks ∨ (w ∈ l ∧ s.1.Asks p w))
  | [], s, _ => by simp
  | a :: l, s, hnd => by
      obtain ⟨ha, hnd⟩ := List.nodup_cons.mp hnd
      -- the round for another want leaves what is known of this one
      have hasks : w ∈ l → ((nextWant na s a).1.Asks p w ↔ s.1.Asks p w) := fun hw => by
        have hne : w ≠ a := fun he => ha (he ▸ hw)
        unfold Asks
        rw [lookup_nextWant, if_neg hne]
      rw [List.foldl_cons, mem_wantBlocks_foldl_nextWant na p w l _ hnd, mem_wantBlocks_nextWant,
        List.mem_cons, or_assoc]
      refine or_congr_right ?_
      constructor
      · rintro (⟨rfl, h⟩ | ⟨hw, h⟩)
        · exact ⟨.inl rfl, h⟩
        · exact ⟨.inr hw, (hasks hw).mp h⟩
      · rintro ⟨rfl | hw, h⟩
        · exact .inl ⟨rfl, h⟩
        · exact .inr ⟨hw, (hasks hw).mpr h⟩

/-- What the sending of the sets leaves as it is. -/
theorem foldl_sendTo (l : List (PeerID × WantSets)) (s : SessionWantSender × List Effect) :
    (l.foldl sendTo s).1.wants = s.1.wants ∧ (l.foldl sendTo s).1.spm = s.1.spm ∧
      (l.foldl sendTo s).1.sessionID = s.1.sessionID := by
  have h := foldl_keeps (f := sendTo) (fun s => (s.1.wants, s.1.spm, s.1.sessionID))
    (fun _ _ => by dsimp only [sendTo, addSentWantBlocksTo, next]) l s
  simpa only [Prod.mk.injEq] using h

/-- The wants have been sent: each waits for a peer if there was one to ask. -/
structure SentOut (sws sws' : SessionWantSender) : Prop where
  wants : ∀ w, sws'.wants.lookup w = (sws.wants.lookup w).map ask
  peers : sws'.spm.peers = sws.spm.peers
  session : sws'.sessionID = sws.sessionID

theorem sentOut_sendNextWants (na : List PeerID) (sws : SessionWantSender) :
    SentOut sws (sws.sendNextWants na).1 := by
  set l := sws.ranging sws.wants.keys with hl
  set s := l.foldl (nextWant na) (sws.next, ∅) with hs
  have hf : Frame sws s.1 :=
    .of_aside (aside_foldl_nextWant na l (sws.next, ∅))
  obtain ⟨hwants, hspm, hsession⟩ := foldl_sendTo (s.1.ranging s.2.pairs) (s.1.next, [])
  refine ⟨fun w => ?_, (congrArg SessionPeerManager.peers hspm).trans hf.peers,
    hsession.trans hf.session⟩
  have h := foldl_touch (fun s : SessionWantSender × AllWants => fun w => s.1.wants.lookup w)
    (fun _ wi => ask wi) (lookup_nextWant na) (fun _ wi => ask_ask wi) l (sws.next, ∅) w
  refine (congrArg (AList.lookup w) hwants).trans (h.trans ?_)
  split
  · rfl
  · rename_i hw
    have hw : w ∉ sws.wants := fun h => hw (mem_ranging.mpr h)
    show sws.wants.lookup w = _
    rw [AList.lookup_eq_none.mpr hw]
    rfl

end SessionWantSender

end BitswapAuth
