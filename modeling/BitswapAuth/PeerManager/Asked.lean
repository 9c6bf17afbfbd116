/-
# `BitswapAuth.PeerManager.Asked` — what the peer manager is for

Seen from outside, the peer manager keeps three sets: the peers that are
connected, the wants that everyone is asked for, and for each peer the wants
that it is asked for on its own.

| | |
| :-- | :-- |
| `Asked` | the three sets |
| `Asked.step` | what an operation is to do to them |
| `PeerManager.asked` | the sets of a peer manager |
| `asked_step` | an operation of the peer manager does that to its sets |

Queues, gauges and the reverse index are gone at this level; `Exact` is what the
proof needs of them, and every operation keeps it.  The local wantlist is what is
held for anyone (`Exact.mem_currentWants`).
-/
import BitswapAuth.PeerManager.Told
import Mathlib.Data.Set.Insert

namespace BitswapAuth

open Lib PeerWantManager

/-- The wants an operation asks peers for. -/
def PeerManager.Op.asks : PeerManager.Op → List Want
  | .broadcastWantHaves ws _ => ws
  | .sendWants _ bs hs => bs ++ hs
  | .connected .. | .disconnected .. | .sendCancels .. => []

/-- The peers, and what they are asked for. -/
@[ext]
structure Asked where
  connected : Set PeerID
  broadcast : Set Want
  targeted : PeerID → Set Want

namespace Asked

/-- The peer is asked for the want, alone or with everyone. -/
def Outstanding (a : Asked) (p : PeerID) (w : Want) : Prop := w ∈ a.broadcast ∨ w ∈ a.targeted p

/-- The want is held for someone. -/
def Holds (a : Asked) (w : Want) : Prop := w ∈ a.broadcast ∨ ∃ p, w ∈ a.targeted p

/-- What an operation does. -/
def step (a : Asked) : PeerManager.Op → Asked
  | .connected p _ _ => { a with connected := insert p a.connected }
  | .disconnected p _ _ _ =>
      { a with
        connected := a.connected \ {p}
        targeted := fun q => {w | w ∈ a.targeted q ∧ q ≠ p} }
  | .broadcastWantHaves ws _ => { a with broadcast := a.broadcast ∪ {w | w ∈ ws} }
  | .sendWants p bs hs =>
      { a with
        -- a want-have that everyone is asked for is not sent to a peer on its own
        targeted := fun q => a.targeted q ∪
          {w | (q = p ∧ p ∈ a.connected) ∧ (w ∈ bs ∨ (w ∈ hs ∧ w ∉ a.broadcast))} }
  | .sendCancels ks _ =>
      { a with
        broadcast := a.broadcast \ {w | w ∈ ks}
        targeted := fun q => a.targeted q \ {w | w ∈ ks} }

variable {a : Asked} {w : Want}

/-- What is held after an operation was held before, or the operation asks for it. -/
theorem Holds.of_step {op : PeerManager.Op} (h : (a.step op).Holds w) :
    a.Holds w ∨ w ∈ op.asks := by
  cases op with
  | connected p ob os => exact .inl h
  | disconnected p ob oh os => exact .inl (h.imp_right fun ⟨q, hq⟩ => ⟨q, hq.1⟩)
  | broadcastWantHaves ws o =>
      rcases h with (hw | hw) | hw
      · exact .inl (.inl hw)
      · exact .inr hw
      · exact .inl (.inr hw)
  | sendWants p bs hs =>
      rcases h with hw | ⟨q, hw | ⟨-, hw⟩⟩
      · exact .inl (.inl hw)
      · exact .inl (.inr ⟨q, hw⟩)
      · exact .inr (List.mem_append.mpr (hw.imp_right And.left))
  | sendCancels ks o =>
      exact .inl (h.imp (fun hw => hw.1) fun ⟨q, hq⟩ => ⟨q, hq.1⟩)

theorem not_holds_cancelled {ks : List Want} {o : RangeOrder} (hw : w ∈ ks) :
    ¬ (a.step (.sendCancels ks o)).Holds w := by
  rintro (h | ⟨q, h⟩)
  · exact h.2 hw
  · exact h.2 hw

end Asked

namespace PeerWantManager

/-- The wants recorded for a peer. -/
def targeted (pwm : PeerWantManager) (p : PeerID) : Set Want :=
  {w | ∃ pws, pwm.peerWants.lookup p = some pws ∧ pws.has w = true}

variable {pwm : PeerWantManager} {p q : PeerID} {w : Want}

theorem mem_targeted {pws : PeerWant} (h : pwm.peerWants.lookup p = some pws) :
    w ∈ pwm.targeted p ↔ pws.has w = true := by
  constructor
  · rintro ⟨pws', hp, hw⟩
    rw [Option.some.inj (h.symm.trans hp)]
    exact hw
  · intro hw
    exact ⟨pws, h, hw⟩

theorem notMem_targeted (h : pwm.peerWants.lookup p = none) : w ∉ pwm.targeted p := by
  rintro ⟨pws, hp, -⟩
  rw [h] at hp
  cases hp

theorem targeted_congr {pwm' : PeerWantManager}
    (h : pwm'.peerWants.lookup p = pwm.peerWants.lookup p) :
    pwm'.targeted p = pwm.targeted p := by
  rw [targeted, targeted, h]

theorem targeted_addPeer (o : RangeOrder) : (pwm.addPeer p o).1.targeted q = pwm.targeted q := by
  rw [addPeer]
  split
  · rfl
  · rename_i hp
    by_cases hq : q = p
    · subst hq
      ext w
      rw [mem_targeted (AList.lookup_insert _)]
      simp [notMem_targeted (AList.lookup_eq_none.mpr hp), PeerWant.new, PeerWant.has]
    · exact targeted_congr (AList.lookup_insert_ne hq)

theorem mem_peerWants_addPeer (o : RangeOrder) :
    q ∈ (pwm.addPeer p o).1.peerWants ↔ q = p ∨ q ∈ pwm.peerWants := by
  rw [addPeer]
  split
  · rename_i hp
    exact ⟨.inr, fun h => h.elim (fun h => h ▸ hp) id⟩
  · exact AList.mem_insert _

theorem mem_peerWants_sendWants {bs hs : List Want} :
    q ∈ (pwm.sendWants p bs hs).1.peerWants ↔ q ∈ pwm.peerWants := by
  cases hp : pwm.peerWants.lookup p with
  | none => rw [sendWants, if_neg (AList.lookup_eq_none.mp hp)]
  | some pws =>
      obtain ⟨B, H, pws', hs⟩ := sendWants_spec bs hs hp
      by_cases hq : q = p
      · subst hq
        exact iff_of_true (GoMap.mem_of_lookup hs.peer) (GoMap.mem_of_lookup hp)
      · rw [GoMap.mem_iff_lookup, GoMap.mem_iff_lookup, hs.others q hq]

theorem mem_targeted_sendWants (bs hs : List Want) :
    w ∈ (pwm.sendWants p bs hs).1.targeted q ↔ w ∈ pwm.targeted q ∨
      ((q = p ∧ p ∈ pwm.peerWants) ∧ (w ∈ bs ∨ (w ∈ hs ∧ w ∉ pwm.broadcastWants))) := by
  cases hp : pwm.peerWants.lookup p with
  | none =>
      have hno : p ∉ pwm.peerWants := AList.lookup_eq_none.mp hp
      rw [sendWants, if_neg hno]
      simp [hno]
  | some pws =>
      by_cases hq : q = p
      · subst hq
        obtain ⟨pws', hp', hhas⟩ := sendWants_has bs hs hp
        rw [mem_targeted hp', mem_targeted hp, hhas]
        simp [GoMap.mem_of_lookup hp]
      · obtain ⟨B, H, pws', hs⟩ := sendWants_spec bs hs hp
        rw [targeted_congr (hs.others q hq)]
        simp [hq]

theorem mem_targeted_sendCancels (ks : List Want) (o : RangeOrder) (h : pwm.IndexExact) :
    w ∈ (pwm.sendCancels ks o).1.targeted q ↔ w ∈ pwm.targeted q ∧ w ∉ ks := by
  have hc := sendCancels_spec ks o h
  cases hq : pwm.peerWants.lookup q with
  | none => simp [notMem_targeted hq, notMem_targeted (hc.absent q hq)]
  | some pws =>
      obtain ⟨pws', _, hq', hwo, -⟩ := hc.peer q pws hq
      rw [mem_targeted hq', mem_targeted hq, hwo.has]

theorem mem_peerWants_sendCancels (ks : List Want) (o : RangeOrder) (h : pwm.IndexExact) :
    q ∈ (pwm.sendCancels ks o).1.peerWants ↔ q ∈ pwm.peerWants := by
  have hc := sendCancels_spec ks o h
  cases hq : pwm.peerWants.lookup q with
  | none =>
      exact iff_of_false (AList.lookup_eq_none.mp (hc.absent q hq)) (AList.lookup_eq_none.mp hq)
  | some pws =>
      obtain ⟨pws', _, hq', -⟩ := hc.peer q pws hq
      exact iff_of_true (GoMap.mem_of_lookup hq') (GoMap.mem_of_lookup hq)

theorem mem_broadcastWants_sendWants {bs hs : List Want} :
    w ∈ (pwm.sendWants p bs hs).1.broadcastWants ↔ w ∈ pwm.broadcastWants := by
  cases hp : pwm.peerWants.lookup p with
  | none => rw [sendWants, if_neg (AList.lookup_eq_none.mp hp)]
  | some pws =>
      obtain ⟨B, H, pws', hs⟩ := sendWants_spec bs hs hp
      rw [hs.broadcastWants]

end PeerWantManager

namespace PeerManager

variable {Q : Type}

/-- The sets of a peer manager. -/
def asked (pm : PeerManager Q) : Asked where
  connected := {p | p ∈ pm.peerQueues}
  broadcast := {w | w ∈ pm.pwm.broadcastWants}
  targeted := pm.pwm.targeted

instance (pm : PeerManager Q) (p : PeerID) (w : Want) : Decidable (pm.asked.Outstanding p w) :=
  inferInstanceAs (Decidable (w ∈ pm.pwm.broadcastWants ∨
    ∃ pws ∈ pm.pwm.peerWants.lookup p, pws.has w = true))

/-- The index is exact, with no want that has no peer, and just the connected peers have
a record. -/
structure Exact (pm : PeerManager Q) : Prop where
  index : pm.pwm.IndexExact
  nonempty : pm.pwm.wantPeers.NonemptySets
  peers : ∀ p, p ∈ pm.peerQueues ↔ p ∈ pm.pwm.peerWants

theorem exact_new : (new : PeerManager Q).Exact where
  index := indexExact_new
  nonempty w hw := absurd hw (AList.notMem_empty w)
  peers p := by simp [new, PeerWantManager.new]

/-- The local wantlist has just the wants that are held. -/
theorem Exact.mem_currentWants {pm : PeerManager Q} (h : pm.Exact) {w : Want}
    {ob ow : RangeOrder} : w ∈ pm.currentWants ob ow ↔ pm.asked.Holds w := by
  rw [currentWants, PeerWantManager.getWants, List.mem_append, List.mem_filter,
    RangeOrder.mem_range, RangeOrder.mem_range]
  constructor
  · rintro (hw | ⟨hw, -⟩)
    · exact .inl hw
    · obtain ⟨p, hp⟩ := h.nonempty w hw
      exact .inr ⟨p, (h.index w p).mp hp⟩
  · intro hw
    by_cases hb : w ∈ pm.pwm.broadcastWants
    · exact .inl hb
    · obtain ⟨p, hp⟩ := hw.resolve_left hb
      obtain ⟨s, hs, -⟩ := (h.index w p).mpr hp
      exact .inr ⟨GoMap.mem_of_lookup hs, by simp [hb]⟩

variable [PeerQueue Q] {pm : PeerManager Q}

/-- An operation of the want manager that keeps the peers, with its calls made. -/
theorem Exact.applied (h : pm.Exact) {r : PeerWantManager × Calls} (hix : r.1.IndexExact)
    (hne : r.1.wantPeers.NonemptySets)
    (hpeers : ∀ q, q ∈ r.1.peerWants ↔ q ∈ pm.pwm.peerWants) : (pm.applied r).Exact := by
  refine ⟨hix, hne, fun q => ?_⟩
  show q ∈ deliver pm.peerQueues r.2 ↔ q ∈ r.1.peerWants
  rw [mem_deliver, hpeers, h.peers]

theorem asked_applied {r : PeerWantManager × Calls} :
    (pm.applied r).asked =
      ⟨pm.asked.connected, {w | w ∈ r.1.broadcastWants}, r.1.targeted⟩ := by
  have hq : {p | p ∈ deliver pm.peerQueues r.2} = {p | p ∈ pm.peerQueues} :=
    Set.ext fun p => mem_deliver _ _
  rw [asked]
  exact congrArg (Asked.mk · _ _) hq

theorem pwm_getOrCreate (p : PeerID) : (pm.getOrCreate p).pwm = pm.pwm := by
  rw [getOrCreate]
  split <;> rfl

theorem asked_connected (p : PeerID) (ob os : RangeOrder) (h : pm.Exact) :
    (pm.connected p ob os).1.Exact ∧
      (pm.connected p ob os).1.asked = pm.asked.step (.connected p ob os) := by
  have hpwm : (pm.connected p ob os).1.pwm = (pm.pwm.addPeer p ob).1 := by
    show ((pm.getOrCreate p).pwm.addPeer p ob).1 = _
    rw [pwm_getOrCreate]
  refine ⟨⟨?_, ?_, fun q => ?_⟩, Asked.ext (Set.ext fun q => mem_peerQueues_connected) ?_
    (funext fun q => ?_)⟩
  · rw [hpwm]
    exact indexExact_addPeer p ob h.index
  · rw [hpwm, PeerWantManager.addPeer]
    split <;> exact h.nonempty
  · rw [mem_peerQueues_connected, hpwm, mem_peerWants_addPeer, h.peers]
  · show {w | w ∈ (pm.connected p ob os).1.pwm.broadcastWants} = _
    rw [hpwm, PeerWantManager.addPeer]
    split <;> rfl
  · show (pm.connected p ob os).1.pwm.targeted q = _
    rw [hpwm]
    exact targeted_addPeer ob

omit [PeerQueue Q] in
/-- The record once a peer is disconnected; a peer without a queue has none. -/
theorem pwm_disconnected (p : PeerID) (ob oh os : RangeOrder) (h : pm.Exact) :
    (pm.disconnected p ob oh os).1.pwm.IndexExact ∧
      (pm.disconnected p ob oh os).1.pwm.wantPeers.NonemptySets ∧
      (pm.disconnected p ob oh os).1.pwm.broadcastWants = pm.pwm.broadcastWants ∧
      ∀ q, (pm.disconnected p ob oh os).1.pwm.peerWants.lookup q =
        if q = p then none else pm.pwm.peerWants.lookup q := by
  rw [disconnected]
  split
  · obtain ⟨hix, hb, hl⟩ := removePeer_spec p ob oh h.index
    exact ⟨hix, nonemptySets_removePeer p ob oh h.nonempty, hb, hl⟩
  · rename_i hp
    refine ⟨h.index, h.nonempty, rfl, fun q => ?_⟩
    split
    · rename_i hq
      rw [hq]
      exact AList.lookup_eq_none.mpr fun hm => hp ((h.peers p).mpr hm)
    · rfl

omit [PeerQueue Q] in
theorem asked_disconnected (p : PeerID) (ob oh os : RangeOrder) (h : pm.Exact) :
    (pm.disconnected p ob oh os).1.Exact ∧
      (pm.disconnected p ob oh os).1.asked = pm.asked.step (.disconnected p ob oh os) := by
  obtain ⟨hix, hne, hb, hl⟩ := pwm_disconnected p ob oh os h
  refine ⟨⟨hix, hne, fun q => ?_⟩, Asked.ext (Set.ext fun q => ?_) ?_ (funext fun q => ?_)⟩
  · have hmem : q ∈ (pm.disconnected p ob oh os).1.pwm.peerWants ↔
        q ≠ p ∧ q ∈ pm.pwm.peerWants := by
      simp only [GoMap.mem_iff_lookup, hl]
      by_cases hq : q = p <;> simp [hq]
    rw [mem_peerQueues_disconnected, hmem, h.peers]
  · exact mem_peerQueues_disconnected.trans and_comm
  · show {w | w ∈ _} = {w | w ∈ _}
    rw [hb]
  · show PeerWantManager.targeted _ q = {w | w ∈ pm.pwm.targeted q ∧ q ≠ p}
    by_cases hq : q = p
    · have hnone := (hl q).trans (if_pos hq)
      ext w
      exact iff_of_false (notMem_targeted hnone) fun hw => hw.2 hq
    · rw [targeted_congr ((hl q).trans (if_neg hq))]
      simp [hq]

theorem asked_broadcastWantHaves (ws : List Want) (o : RangeOrder) (h : pm.Exact) :
    (pm.broadcastWantHaves ws o).Exact ∧
      (pm.broadcastWantHaves ws o).asked = pm.asked.step (.broadcastWantHaves ws o) := by
  have hs := foldl_recordBroadcast_spec ws (pm.pwm, [])
  refine ⟨h.applied (indexExact_broadcastWantHaves ws o h.index) ?_ fun q => ?_, ?_⟩
  · show (ws.foldl PeerWantManager.recordBroadcast (pm.pwm, [])).1.wantPeers.NonemptySets
    rw [hs.wantPeers]
    exact h.nonempty
  · show q ∈ (ws.foldl PeerWantManager.recordBroadcast (pm.pwm, [])).1.peerWants ↔ _
    rw [hs.peerWants]
  · rw [broadcastWantHaves, asked_applied]
    refine Asked.ext rfl (Set.ext fun w => hs.broadcastWants w) (funext fun q => ?_)
    exact targeted_congr (congrArg (AList.lookup q) hs.peerWants)

theorem asked_sendWants (p : PeerID) (bs hs : List Want) (h : pm.Exact) :
    (pm.sendWants p bs hs).Exact ∧
      (pm.sendWants p bs hs).asked = pm.asked.step (.sendWants p bs hs) := by
  rw [sendWants]
  split
  · refine ⟨h.applied (indexExact_sendWants p bs hs h.index)
      (nonemptySets_sendWants p bs hs h.nonempty)
      fun q => mem_peerWants_sendWants, ?_⟩
    rw [asked_applied]
    refine Asked.ext rfl (Set.ext fun w => mem_broadcastWants_sendWants)
      (funext fun q => Set.ext fun w => ?_)
    refine (mem_targeted_sendWants bs hs).trans ?_
    rw [← h.peers]
    exact Iff.rfl
  · rename_i hp
    refine ⟨h, Asked.ext rfl rfl (funext fun q => Set.ext fun w => ?_)⟩
    exact ⟨.inl, fun hw => hw.elim id fun hw => absurd hw.1.2 hp⟩

theorem asked_sendCancels (ks : List Want) (o : RangeOrder) (h : pm.Exact) :
    (pm.sendCancels ks o).Exact ∧
      (pm.sendCancels ks o).asked = pm.asked.step (.sendCancels ks o) := by
  refine ⟨h.applied (indexExact_sendCancels ks o h.index)
    (nonemptySets_sendCancels ks o h.nonempty)
    fun q => mem_peerWants_sendCancels ks o h.index, ?_⟩
  rw [sendCancels, asked_applied]
  refine Asked.ext rfl (Set.ext fun w => ?_) (funext fun q => Set.ext fun w => ?_)
  · exact (sendCancels_spec ks o h.index).broadcastWants w
  · exact mem_targeted_sendCancels ks o h.index

/-- **The peer manager does what it is for.**  An operation changes the three sets as
`Asked.step` says. -/
theorem asked_step (op : Op) (h : pm.Exact) :
    (pm.step op).Exact ∧ (pm.step op).asked = pm.asked.step op := by
  cases op with
  | connected p ob os => exact asked_connected p ob os h
  | disconnected p ob oh os => exact asked_disconnected p ob oh os h
  | broadcastWantHaves ws o => exact asked_broadcastWantHaves ws o h
  | sendWants p bs hs => exact asked_sendWants p bs hs h
  | sendCancels ks o => exact asked_sendCancels ks o h

end PeerManager

end BitswapAuth
