/-
# `BitswapAuth.PeerManager.Record` — what the operations do to the record

One lemma for each loop of the want manager, saying which wants it takes and
what the record is afterwards, and from these one for each operation.  The
wants that an operation sends are always the *fresh* ones of its argument
(`GoSet.fresh`): those that are not recorded, each once.

The reverse index is exact throughout (`IndexExact`), which is what the cancel
path that goes by the index rests on.
-/
import BitswapAuth.PeerManager.WantManager
import BitswapAuth.Lib.Run

namespace BitswapAuth

open Lib

namespace PeerWantManager

/-- The index has a peer for a want just if the want is recorded for the peer. -/
def IndexExact (pwm : PeerWantManager) : Prop :=
  ∀ w p, pwm.wantPeers.Linked w p ↔ ∃ pws, pwm.peerWants.lookup p = some pws ∧ pws.has w = true

theorem indexExact_new : new.IndexExact := by
  intro w p
  simp [new, GoMap.Linked]

theorem mem_peersOf {pwm : PeerWantManager} {w : Want} {p : PeerID} :
    p ∈ pwm.peersOf w ↔ pwm.wantPeers.Linked w p := by
  rw [peersOf, GoMap.Linked]
  cases h : pwm.wantPeers.lookup w with
  | none => simp [AList.mem_keys]
  | some s => simp [AList.mem_keys]

/-! ## Adding and removing a peer -/

theorem indexExact_addPeer {pwm : PeerWantManager} (p : PeerID) (o : RangeOrder)
    (h : pwm.IndexExact) : (pwm.addPeer p o).1.IndexExact := by
  rw [addPeer]
  split
  · exact h
  · rename_i hp
    intro w q
    rw [show (⟨pwm.peerWants.insert p .new, pwm.wantPeers, pwm.broadcastWants, pwm.wantGauge,
      pwm.wantBlockGauge⟩ : PeerWantManager).wantPeers = pwm.wantPeers from rfl, h w q]
    dsimp only
    rw [GoMap.lookup_insert_ite]
    by_cases hq : q = p
    · subst hq
      have hnone : pwm.peerWants.lookup q = none := AList.lookup_eq_none.mpr hp
      simp [hnone, PeerWant.new, PeerWant.has]
    · simp [hq]

/-- The clean-up of the wants of a peer that leaves takes the peer out of their
index entries and leaves the rest of the record alone. -/
structure Dropped (p : PeerID) (ws : List Want) (pwm pwm' : PeerWantManager) : Prop where
  peerWants : pwm'.peerWants = pwm.peerWants
  broadcastWants : pwm'.broadcastWants = pwm.broadcastWants
  linked : ∀ w q, pwm'.wantPeers.Linked w q ↔ pwm.wantPeers.Linked w q ∧ ¬ (w ∈ ws ∧ q = p)

theorem foldl_dropped {p : PeerID} {f : PeerWantManager → Want → PeerWantManager}
    (hf : ∀ pwm w, (f pwm w).peerWants = pwm.peerWants ∧
      (f pwm w).broadcastWants = pwm.broadcastWants ∧
      (f pwm w).wantPeers = pwm.wantPeers.unlink w p) :
    ∀ (ws : List Want) (pwm : PeerWantManager), Dropped p ws pwm (ws.foldl f pwm)
  | [], pwm => ⟨rfl, rfl, fun w q => by simp⟩
  | k :: ws, pwm => by
      obtain ⟨hp, hb, hl⟩ := hf pwm k
      have ih := foldl_dropped hf ws (f pwm k)
      refine ⟨ih.peerWants.trans hp, ih.broadcastWants.trans hb, fun w q => ?_⟩
      rw [List.foldl_cons, ih.linked, hl, GoMap.linked_unlink, List.mem_cons]
      grind

/-- The record once a peer is removed. -/
theorem removePeer_spec {pwm : PeerWantManager} (p : PeerID) (ob oh : RangeOrder)
    (h : pwm.IndexExact) :
    (pwm.removePeer p ob oh).IndexExact ∧
      (pwm.removePeer p ob oh).broadcastWants = pwm.broadcastWants ∧
      ∀ q, (pwm.removePeer p ob oh).peerWants.lookup q =
        if q = p then none else pwm.peerWants.lookup q := by
  rw [removePeer]
  split
  · rename_i hp
    refine ⟨h, rfl, fun q => ?_⟩
    split
    · rename_i hq; rw [hq, hp]
    · rfl
  · rename_i pws hp
    have hb := foldl_dropped (f := dropWantBlock p) (fun _ _ => ⟨rfl, rfl, rfl⟩)
      (ob.range pws.wantBlocks.keys) pwm
    have hh := foldl_dropped (f := dropWantHave p) (fun _ _ => ⟨rfl, rfl, rfl⟩)
      (oh.range pws.wantHaves.keys) ((ob.range pws.wantBlocks.keys).foldl (dropWantBlock p) pwm)
    refine ⟨fun w q => ?_, hh.broadcastWants.trans hb.broadcastWants, fun q => ?_⟩
    · dsimp only
      rw [hh.linked, hb.linked, hh.peerWants, hb.peerWants, h w q, GoMap.lookup_erase_ite]
      simp only [RangeOrder.mem_range]
      by_cases hq : q = p
      · subst hq
        rw [hp]
        simp only [if_true, Option.some.injEq, exists_eq_left', PeerWant.has_eq_true]
        simp only [and_true, reduceCtorEq, false_and, exists_false, iff_false, not_and,
          Decidable.not_not, and_imp]
        tauto
      · simp [hq]
    · dsimp only
      rw [hh.peerWants, hb.peerWants, GoMap.lookup_erase_ite]

/-! ## Broadcasting -/

/-- The wants recorded as broadcast are the fresh ones. -/
structure Broadcast (ws : List Want) (s s' : PeerWantManager × List Want) : Prop where
  unsent : s'.2 = s.2 ++ s.1.broadcastWants.fresh ws
  peerWants : s'.1.peerWants = s.1.peerWants
  wantPeers : s'.1.wantPeers = s.1.wantPeers
  broadcastWants : ∀ w, w ∈ s'.1.broadcastWants ↔ w ∈ s.1.broadcastWants ∨ w ∈ ws

theorem foldl_recordBroadcast_spec : ∀ (ws : List Want) (s : PeerWantManager × List Want),
    Broadcast ws s (ws.foldl recordBroadcast s)
  | [], s => ⟨by simp [GoSet.fresh], rfl, rfl, fun w => by simp⟩
  | k :: ws, s => by
      have ih := foldl_recordBroadcast_spec ws (recordBroadcast s k)
      rw [List.foldl_cons]
      by_cases hk : k ∈ s.1.broadcastWants
      · have hs : recordBroadcast s k = s := if_pos (GoSet.has_eq_true.mpr hk)
        rw [hs] at ih ⊢
        exact ⟨by rw [ih.unsent, GoSet.fresh_cons_of_mem hk], ih.peerWants, ih.wantPeers,
          fun w => (ih.broadcastWants w).trans (GoSet.mem_or_mem_cons hk).symm⟩
      · have hk' : ¬ s.1.broadcastWants.has k = true := fun h => hk (GoSet.has_eq_true.mp h)
        have hb : (recordBroadcast s k).1.broadcastWants = s.1.broadcastWants.add k := by
          rw [recordBroadcast, if_neg hk']
        have hu : (recordBroadcast s k).2 = s.2 ++ [k] := by rw [recordBroadcast, if_neg hk']
        have hp : (recordBroadcast s k).1.peerWants = s.1.peerWants := by
          rw [recordBroadcast, if_neg hk']
        have hw : (recordBroadcast s k).1.wantPeers = s.1.wantPeers := by
          rw [recordBroadcast, if_neg hk']
        refine ⟨?_, ih.peerWants.trans hp, ih.wantPeers.trans hw, fun w => ?_⟩
        · rw [ih.unsent, hu, hb, GoSet.fresh_cons_of_notMem hk, List.append_assoc,
            List.singleton_append]
        · rw [ih.broadcastWants, hb, GoSet.mem_add, List.mem_cons, or_assoc, or_left_comm]

theorem indexExact_broadcastWantHaves {pwm : PeerWantManager} (ws : List Want) (o : RangeOrder)
    (h : pwm.IndexExact) : (pwm.broadcastWantHaves ws o).1.IndexExact := by
  have hs := foldl_recordBroadcast_spec ws (pwm, [])
  intro w p
  rw [broadcastWantHaves]
  dsimp only
  rw [hs.wantPeers, hs.peerWants]
  exact h w p

/-! ## Sending wants to a peer -/

/-- What a loop of `sendWants` leaves: `new` are the wants it took for the peer,
whose record went from `pws` to `pws'`. -/
structure SentTo (p : PeerID) (new : List Want) (pws pws' : PeerWant)
    (s s' : PeerWantManager × List Want) : Prop where
  sent : s'.2 = s.2 ++ new
  peer : s'.1.peerWants.lookup p = some pws'
  others : ∀ q, q ≠ p → s'.1.peerWants.lookup q = s.1.peerWants.lookup q
  broadcastWants : s'.1.broadcastWants = s.1.broadcastWants
  linked : ∀ w q, s'.1.wantPeers.Linked w q ↔ (w ∈ new ∧ q = p) ∨ s.1.wantPeers.Linked w q
  has : ∀ w, pws'.has w = true ↔ w ∈ new ∨ pws.has w = true

theorem SentTo.refl {p : PeerID} {pws : PeerWant} {s : PeerWantManager × List Want}
    (h : s.1.peerWants.lookup p = some pws) : SentTo p [] pws pws s s :=
  ⟨by simp, h, fun _ _ => rfl, rfl, fun _ _ => by simp, fun _ => by simp⟩

theorem SentTo.trans {p : PeerID} {new new' : List Want} {pws pws' pws'' : PeerWant}
    {s s' s'' : PeerWantManager × List Want} (h : SentTo p new pws pws' s s')
    (h' : SentTo p new' pws' pws'' s' s'') : SentTo p (new ++ new') pws pws'' s s'' := by
  refine ⟨by rw [h'.sent, h.sent, List.append_assoc], h'.peer,
    fun q hq => (h'.others q hq).trans (h.others q hq), h'.broadcastWants.trans h.broadcastWants,
    fun w q => ?_, fun w => ?_⟩
  · rw [h'.linked, h.linked, List.mem_append, or_and_right, or_assoc, or_left_comm]
  · rw [h'.has, h.has, List.mem_append, or_assoc, or_left_comm]

/-- One want taken: the peer's record is another one, and the want is on the index. -/
theorem SentTo.one {p : PeerID} {c : Want} {pws pws' : PeerWant} {s : PeerWantManager × List Want}
    {pwm : PeerWantManager} (hpeer : pwm.peerWants = s.1.peerWants.insert p pws')
    (hb : pwm.broadcastWants = s.1.broadcastWants) (hl : pwm.wantPeers = s.1.wantPeers.link c p)
    (hhas : ∀ w, pws'.has w = true ↔ w = c ∨ pws.has w = true) :
    SentTo p [c] pws pws' s (pwm, s.2 ++ [c]) where
  sent := rfl
  peer := by rw [hpeer, GoMap.lookup_insert_ite, if_pos rfl]
  others q hq := by rw [hpeer, GoMap.lookup_insert_ite, if_neg hq]
  broadcastWants := hb
  linked w q := by rw [hl, GoMap.linked_link, List.mem_singleton]
  has w := by rw [hhas, List.mem_singleton]

theorem sendWantBlock_spec {p : PeerID} {pws : PeerWant} {s : PeerWantManager × List Want}
    (h : s.1.peerWants.lookup p = some pws) {c : Want} (hc : c ∉ pws.wantBlocks) :
    SentTo p [c] pws ⟨pws.wantBlocks.add c, pws.wantHaves.remove c⟩ s (sendWantBlock p s c) := by
  have hc' : ¬ pws.wantBlocks.has c = true := fun h => hc (GoSet.has_eq_true.mp h)
  simp only [sendWantBlock, h, if_neg hc']
  refine .one rfl rfl rfl fun w => ?_
  simp only [PeerWant.has_eq_true, GoSet.mem_add, GoSet.mem_remove]
  grind

/-- **The want-block loop** takes the want-blocks that were not sent yet. -/
theorem foldl_sendWantBlock_spec {p : PeerID} : ∀ (bs : List Want) (pws : PeerWant)
    (s : PeerWantManager × List Want), s.1.peerWants.lookup p = some pws →
    ∃ pws', SentTo p (pws.wantBlocks.fresh bs) pws pws' s (bs.foldl (sendWantBlock p) s) ∧
      (∀ w, w ∈ pws'.wantBlocks ↔ w ∈ pws.wantBlocks ∨ w ∈ bs) ∧
      ∀ w, w ∈ pws'.wantHaves ↔ w ∈ pws.wantHaves ∧ w ∉ pws.wantBlocks.fresh bs
  | [], pws, s, h => ⟨pws, .refl h, fun w => by simp, fun w => by simp [GoSet.fresh]⟩
  | c :: bs, pws, s, h => by
      rw [List.foldl_cons]
      by_cases hc : c ∈ pws.wantBlocks
      · have hs : sendWantBlock p s c = s := by
          simp only [sendWantBlock, h, if_pos (GoSet.has_eq_true.mpr hc)]
        obtain ⟨pws', hsent, hb, hh⟩ := foldl_sendWantBlock_spec bs pws s h
        rw [hs, GoSet.fresh_cons_of_mem hc]
        exact ⟨pws', hsent, fun w => (hb w).trans (GoSet.mem_or_mem_cons hc).symm, hh⟩
      · have hone := sendWantBlock_spec h hc
        obtain ⟨pws', hsent, hb, hh⟩ := foldl_sendWantBlock_spec bs _ _ hone.peer
        rw [GoSet.fresh_cons_of_notMem hc]
        refine ⟨pws', hone.trans hsent, fun w => ?_, fun w => ?_⟩
        · rw [hb, GoSet.mem_add, List.mem_cons, or_assoc, or_left_comm]
        · rw [hh, GoSet.mem_remove, List.mem_cons]
          grind

theorem sendWantHave_spec {p : PeerID} {pws : PeerWant} {s : PeerWantManager × List Want}
    (h : s.1.peerWants.lookup p = some pws) {c : Want} (hb : c ∉ s.1.broadcastWants)
    (hc : pws.has c = false) :
    SentTo p [c] pws ⟨pws.wantBlocks, pws.wantHaves.add c⟩ s (sendWantHave p s c) := by
  have hb' : ¬ s.1.broadcastWants.has c = true := fun h => hb (GoSet.has_eq_true.mp h)
  simp only [sendWantHave, h, if_neg hb', hc, Bool.false_eq_true, if_false]
  refine .one rfl rfl rfl fun w => ?_
  rw [PeerWant.has_eq_true, PeerWant.has_eq_true, GoSet.mem_add, or_left_comm]

/-- The want-haves of an argument that are neither broadcast nor sent as
want-blocks. -/
def haveCandidates (bcst blocks : GoSet Want) (hs : List Want) : List Want :=
  hs.filter fun w => !bcst.has w && !blocks.has w

/-- **The want-have loop** takes the want-haves that were not sent in any form. -/
theorem foldl_sendWantHave_spec {p : PeerID} : ∀ (hs : List Want) (pws : PeerWant)
    (s : PeerWantManager × List Want), s.1.peerWants.lookup p = some pws →
    ∃ pws', SentTo p
        (pws.wantHaves.fresh (haveCandidates s.1.broadcastWants pws.wantBlocks hs)) pws pws' s
        (hs.foldl (sendWantHave p) s) ∧
      pws'.wantBlocks = pws.wantBlocks
  | [], pws, s, h => ⟨pws, .refl h, rfl⟩
  | c :: hs, pws, s, h => by
      rw [List.foldl_cons]
      rw [haveCandidates]
      rw [List.filter_cons]
      by_cases hb : c ∈ s.1.broadcastWants
      · have hs' : sendWantHave p s c = s := by
          simp only [sendWantHave, h, if_pos (GoSet.has_eq_true.mpr hb)]
        rw [hs', if_neg (by simp [hb])]
        exact foldl_sendWantHave_spec hs pws s h
      · have hb' : ¬ s.1.broadcastWants.has c = true := fun h => hb (GoSet.has_eq_true.mp h)
        by_cases hc : pws.has c = true
        · have hs' : sendWantHave p s c = s := by
            simp only [sendWantHave, h, if_neg hb', if_pos hc]
          rw [hs']
          obtain ⟨pws', hsent, heq⟩ := foldl_sendWantHave_spec hs pws s h
          refine ⟨pws', ?_, heq⟩
          rcases PeerWant.has_eq_true.mp hc with hc | hc
          · rw [if_neg (by simp [hc])]
            exact hsent
          · by_cases hcb : c ∈ pws.wantBlocks
            · rw [if_neg (by simp [hcb])]
              exact hsent
            · rw [if_pos (by simp [hb, hcb]), GoSet.fresh_cons_of_mem hc]
              exact hsent
        · have hc' : pws.has c = false := by simpa using hc
          have hone := sendWantHave_spec h hb hc'
          obtain ⟨hcb, hch⟩ : c ∉ pws.wantBlocks ∧ c ∉ pws.wantHaves := by
            rw [PeerWant.has_eq_true, not_or] at hc
            exact hc
          obtain ⟨pws', hsent, heq⟩ := foldl_sendWantHave_spec hs _ _ hone.peer
          rw [hone.broadcastWants] at hsent
          rw [if_pos (by simp [hb, hcb]), GoSet.fresh_cons_of_notMem hch]
          exact ⟨pws', hone.trans hsent, heq⟩

/-- **`sendWants`.**  The peer is sent the want-blocks `B` and the want-haves `H`
that are new to it, and the record takes them up. -/
structure SentWants (p : PeerID) (bs hs : List Want) (pwm : PeerWantManager) (pws : PeerWant)
    (r : PeerWantManager × Calls) (B H : List Want) (pws' : PeerWant) : Prop where
  calls : r.2 = [(p, .addWants B H)]
  peer : r.1.peerWants.lookup p = some pws'
  others : ∀ q, q ≠ p → r.1.peerWants.lookup q = pwm.peerWants.lookup q
  broadcastWants : r.1.broadcastWants = pwm.broadcastWants
  linked : ∀ w q, r.1.wantPeers.Linked w q ↔
    ((w ∈ B ∨ w ∈ H) ∧ q = p) ∨ pwm.wantPeers.Linked w q
  nodup : B.Nodup ∧ H.Nodup
  mem_blocks : ∀ w, w ∈ B ↔ w ∈ bs ∧ w ∉ pws.wantBlocks
  mem_haves : ∀ w ∈ H, w ∉ pwm.broadcastWants ∧ w ∉ pws'.wantBlocks ∧ pws.has w = false
  wantBlocks : ∀ w, w ∈ pws'.wantBlocks ↔ w ∈ pws.wantBlocks ∨ w ∈ bs
  has : ∀ w, pws'.has w = true ↔ (w ∈ B ∨ w ∈ H) ∨ pws.has w = true

theorem sendWants_spec {pwm : PeerWantManager} {p : PeerID} {pws : PeerWant} (bs hs : List Want)
    (h : pwm.peerWants.lookup p = some pws) :
    ∃ B H pws', SentWants p bs hs pwm pws (pwm.sendWants p bs hs) B H pws' := by
  obtain ⟨pws₁, hB, hblocks, -⟩ := foldl_sendWantBlock_spec bs pws (pwm, []) h
  obtain ⟨pws', hH, heq⟩ := foldl_sendWantHave_spec hs pws₁
    ((bs.foldl (sendWantBlock p) (pwm, [])).1, []) hB.peer
  rw [sendWants]
  rw [if_pos (GoMap.mem_of_lookup h)]
  dsimp only
  have hwb : ∀ w, w ∈ pws'.wantBlocks ↔ w ∈ pws.wantBlocks ∨ w ∈ bs := fun w => by
    rw [heq, hblocks]
  refine ⟨pws.wantBlocks.fresh bs, pws₁.wantHaves.fresh (haveCandidates
      (bs.foldl (sendWantBlock p) (pwm, [])).1.broadcastWants pws₁.wantBlocks hs), pws', ?_,
    hH.peer, fun q hq => (hH.others q hq).trans (hB.others q hq),
    hH.broadcastWants.trans hB.broadcastWants, fun w q => ?_,
    ⟨GoSet.nodup_fresh _ _, GoSet.nodup_fresh _ _⟩, fun w => GoSet.mem_fresh, fun w hw => ?_, hwb,
    fun w => ?_⟩
  · rw [hH.sent, hB.sent, List.nil_append, List.nil_append]
  · rw [hH.linked, hB.linked]
    grind
  · obtain ⟨hcand, hnh⟩ := GoSet.mem_fresh.mp hw
    have hcand' : w ∉ pwm.broadcastWants ∧ w ∉ pws₁.wantBlocks := by
      have := (List.mem_filter.mp hcand).2
      rw [hB.broadcastWants] at this
      simpa using this
    refine ⟨hcand'.1, heq ▸ hcand'.2, ?_⟩
    -- what was sent before is recorded still, as a want-block or a want-have
    by_contra hhas
    rw [Bool.not_eq_false] at hhas
    rcases PeerWant.has_eq_true.mp ((hB.has w).mpr (.inr hhas)) with h' | h'
    · exact hcand'.2 h'
    · exact hnh h'
  · rw [hH.has, hB.has]
    grind

/-- What is recorded for the peer afterwards: what was, the want-blocks, and the want-haves
that are not broadcast. -/
theorem sendWants_has {pwm : PeerWantManager} {p : PeerID} {pws : PeerWant} (bs hs : List Want)
    (h : pwm.peerWants.lookup p = some pws) :
    ∃ pws', (pwm.sendWants p bs hs).1.peerWants.lookup p = some pws' ∧
      ∀ w, pws'.has w = true ↔
        pws.has w = true ∨ w ∈ bs ∨ (w ∈ hs ∧ w ∉ pwm.broadcastWants) := by
  obtain ⟨pws₁, hB, hblocks, -⟩ := foldl_sendWantBlock_spec bs pws (pwm, []) h
  obtain ⟨pws', hH, -⟩ := foldl_sendWantHave_spec hs pws₁
    ((bs.foldl (sendWantBlock p) (pwm, [])).1, []) hB.peer
  rw [sendWants, if_pos (GoMap.mem_of_lookup h)]
  refine ⟨pws', hH.peer, fun w => ?_⟩
  have hblk : pws₁.has w = true ↔ pws.has w = true ∨ w ∈ bs := by
    rw [hB.has, GoSet.mem_fresh, PeerWant.has_eq_true]
    grind
  have hnew : w ∈ haveCandidates (bs.foldl (sendWantBlock p) (pwm, [])).1.broadcastWants
      pws₁.wantBlocks hs ↔ w ∈ hs ∧ w ∉ pwm.broadcastWants ∧ w ∉ pws₁.wantBlocks := by
    rw [haveCandidates, List.mem_filter, hB.broadcastWants]
    simp
  rw [hH.has, GoSet.mem_fresh, hnew, ← or_assoc, ← hblk, PeerWant.has_eq_true]
  constructor
  · rintro (⟨⟨hw, hb, -⟩, -⟩ | hrec)
    · exact .inr ⟨hw, hb⟩
    · exact .inl hrec
  · rintro (hrec | ⟨hw, hb⟩)
    · exact .inr hrec
    · refine or_iff_not_imp_right.mpr fun hrec => ?_
      exact ⟨⟨hw, hb, fun h => hrec (.inl h)⟩, fun h => hrec (.inr h)⟩

theorem indexExact_sendWants {pwm : PeerWantManager} (p : PeerID) (bs hs : List Want)
    (h : pwm.IndexExact) : (pwm.sendWants p bs hs).1.IndexExact := by
  cases hp : pwm.peerWants.lookup p with
  | none =>
      have hno : p ∉ pwm.peerWants := AList.lookup_eq_none.mp hp
      rw [sendWants, if_neg hno]
      exact h
  | some pws =>
      obtain ⟨B, H, pws', hs⟩ := sendWants_spec bs hs hp
      intro w q
      rw [hs.linked, h w q]
      by_cases hq : q = p
      · subst hq
        rw [hs.peer, hp]
        simp only [Option.some.injEq, exists_eq_left', hs.has, and_true]
      · rw [hs.others q hq]
        simp [hq]

/-! ## Cancelling -/

/-- What is left of a peer's record when some keys are cancelled. -/
structure Without (ks : List Want) (pws pws' : PeerWant) : Prop where
  wantBlocks : ∀ w, w ∈ pws'.wantBlocks ↔ w ∈ pws.wantBlocks ∧ w ∉ ks
  wantHaves : ∀ w, w ∈ pws'.wantHaves ↔ w ∈ pws.wantHaves ∧ w ∉ ks

theorem Without.has {ks : List Want} {pws pws' : PeerWant} (h : Without ks pws pws') (w : Want) :
    pws'.has w = true ↔ pws.has w = true ∧ w ∉ ks := by
  rw [PeerWant.has_eq_true, PeerWant.has_eq_true, h.wantBlocks, h.wantHaves]
  grind

/-- One key cancelled for a peer: it is off the peer's record, and is to be cancelled if it
was on it and is not broadcast. -/
theorem cancelKey_spec (bcst : GoSet Want) (s : PeerWant × List Want) (k : Want) :
    Without [k] s.1 (cancelKey bcst s k).1 ∧
      ∀ w, w ∈ (cancelKey bcst s k).2 ↔ w ∈ s.2 ∨ (w = k ∧ w ∉ bcst ∧ s.1.has w = true) := by
  rw [cancelKey]
  split
  · rename_i hhas
    refine ⟨⟨fun w => by simp [and_comm], fun w => by simp [and_comm]⟩, fun w => ?_⟩
    dsimp only
    split
    · rename_i hb
      refine ⟨.inl, ?_⟩
      rintro (h | ⟨rfl, h, -⟩)
      · exact h
      · exact absurd (GoSet.has_eq_true.mp hb) h
    · rename_i hb
      have hb' : k ∉ bcst := fun h => hb (GoSet.has_eq_true.mpr h)
      rw [List.mem_append, List.mem_singleton]
      refine or_congr_right ⟨?_, And.left⟩
      rintro rfl
      exact ⟨rfl, hb', hhas⟩
  · rename_i hno
    obtain ⟨hblocks, hhaves⟩ := not_or.mp (mt PeerWant.has_eq_true.mpr hno)
    refine ⟨⟨fun w => ?_, fun w => ?_⟩, fun w => ⟨.inl, ?_⟩⟩
    · rw [List.mem_singleton]
      exact ⟨fun h => ⟨h, fun he => hblocks (he ▸ h)⟩, And.left⟩
    · rw [List.mem_singleton]
      exact ⟨fun h => ⟨h, fun he => hhaves (he ▸ h)⟩, And.left⟩
    · rintro (h | ⟨rfl, -, h⟩)
      · exact h
      · exact absurd h hno

theorem Without.cons {k : Want} {ks : List Want} {pws pws' pws'' : PeerWant}
    (h : Without [k] pws pws') (h' : Without ks pws' pws'') : Without (k :: ks) pws pws'' := by
  have hks : ∀ w, w ∉ k :: ks ↔ w ∉ [k] ∧ w ∉ ks := fun w => by
    rw [List.mem_cons, List.mem_singleton, not_or]
  refine ⟨fun w => ?_, fun w => ?_⟩
  · rw [h'.wantBlocks, h.wantBlocks, hks, and_assoc]
  · rw [h'.wantHaves, h.wantHaves, hks, and_assoc]

theorem foldl_cancelKey_spec {bcst : GoSet Want} : ∀ (ks : List Want) (s : PeerWant × List Want),
    let s' := ks.foldl (cancelKey bcst) s
    Without ks s.1 s'.1 ∧
      ∀ w, w ∈ s'.2 ↔ w ∈ s.2 ∨ (w ∈ ks ∧ w ∉ bcst ∧ s.1.has w = true)
  | [], s => ⟨⟨fun w => by simp, fun w => by simp⟩, fun w => by simp⟩
  | k :: ks, s => by
      obtain ⟨hone, hmem⟩ := cancelKey_spec bcst s k
      obtain ⟨hrest, hmem'⟩ := foldl_cancelKey_spec ks (cancelKey bcst s k)
      refine ⟨hone.cons hrest, fun w => ?_⟩
      rw [List.foldl_cons, hmem', hmem, hone.has, List.mem_singleton, List.mem_cons]
      by_cases hk : w = k
      · subst hk
        grind
      · grind

section Cancels

variable (bc ks : List Want)

/-- A peer's record after a cancel, and the wants its queue is told to cancel. -/
def cancelled (bcst : GoSet Want) (pws : PeerWant) : PeerWant × List Want :=
  ks.foldl (cancelKey bcst) (pws, bc)

/-- The call a peer's queue gets for a cancel, if it gets one. -/
def cancelCall (bcst : GoSet Want) (pws : PeerWant) : List QueueCall :=
  if (cancelled bc ks bcst pws).2.isEmpty then [] else [.addCancels (cancelled bc ks bcst pws).2]

theorem callsTo_append (xs ys : Calls) (p : PeerID) :
    callsTo (xs ++ ys) p = callsTo xs p ++ callsTo ys p :=
  List.filterMap_append

/-- What is seen of a peer: what is broadcast, what is recorded for the peer, and what its
queue is told. -/
def seenOf (q : PeerID) (s : PeerWantManager × Calls) :
    GoSet Want × Option PeerWant × List QueueCall :=
  (s.1.broadcastWants, s.1.peerWants.lookup q, callsTo s.2 q)

theorem sendCancelsTo_elsewhere {p q : PeerID} (s : PeerWantManager × Calls) (h : p ≠ q) :
    seenOf q (sendCancelsTo bc ks s p) = seenOf q s := by
  rw [sendCancelsTo]
  split
  · rfl
  · rw [seenOf]
    dsimp only
    rw [GoMap.lookup_insert_ite, if_neg h.symm]
    split
    · rfl
    · rw [callsTo_append]
      simp [callsTo, h, seenOf]

theorem sendCancelsTo_own (p : PeerID) (s : PeerWantManager × Calls) :
    seenOf p (sendCancelsTo bc ks s p) =
      (s.1.broadcastWants,
        (s.1.peerWants.lookup p).map (fun pws => (cancelled bc ks s.1.broadcastWants pws).1),
        callsTo s.2 p ++
          ((s.1.peerWants.lookup p).map (cancelCall bc ks s.1.broadcastWants)).getD []) := by
  rw [sendCancelsTo]
  cases h : s.1.peerWants.lookup p with
  | none => simp [seenOf, h]
  | some pws =>
      rw [seenOf, Option.map_some, Option.map_some, Option.getD_some, cancelCall, cancelled]
      dsimp only
      rw [AList.lookup_insert]
      split
      · rw [List.append_nil]
      · rw [callsTo_append]
        simp [callsTo]

/-- Sending cancels to peers, each once, changes what is recorded for them and
nothing else. -/
theorem foldl_sendCancelsTo_spec (ps : List PeerID) (s : PeerWantManager × Calls) (hnd : ps.Nodup) :
    let s' := ps.foldl (sendCancelsTo bc ks) s
    s'.1.broadcastWants = s.1.broadcastWants ∧ s'.1.wantPeers = s.1.wantPeers ∧
    ∀ q, s'.1.peerWants.lookup q =
        (if q ∈ ps then
          (s.1.peerWants.lookup q).map (fun pws => (cancelled bc ks s.1.broadcastWants pws).1)
        else s.1.peerWants.lookup q) ∧
      callsTo s'.2 q = callsTo s.2 q ++
        (if q ∈ ps then
          ((s.1.peerWants.lookup q).map (cancelCall bc ks s.1.broadcastWants)).getD []
        else []) := by
  intro s'
  have hkeep : ∀ (t : PeerWantManager × Calls) p,
      t.1.broadcastWants = s.1.broadcastWants ∧ t.1.wantPeers = s.1.wantPeers →
        (sendCancelsTo bc ks t p).1.broadcastWants = s.1.broadcastWants ∧
          (sendCancelsTo bc ks t p).1.wantPeers = s.1.wantPeers := by
    intro t p h
    rw [sendCancelsTo]
    split
    · exact h
    · exact h
  obtain ⟨hb, hw⟩ := run_invariant hkeep ps ⟨rfl, rfl⟩
  refine ⟨hb, hw, fun q => ?_⟩
  by_cases hq : q ∈ ps
  · obtain ⟨t, ht, hfold⟩ := foldl_own (f := sendCancelsTo bc ks) (seenOf q) id
      (by rwa [List.map_id]) hq (fun t _ hp => sendCancelsTo_elsewhere bc ks t hp) s
    rw [sendCancelsTo_own] at hfold
    rw [if_pos hq, if_pos hq]
    simp only [seenOf, Prod.mk.injEq] at ht hfold
    rw [ht.1, ht.2.1, ht.2.2] at hfold
    exact hfold.2
  · have hsame := foldl_elsewhere (f := sendCancelsTo bc ks) (seenOf q) id
      (fun t _ hp => sendCancelsTo_elsewhere bc ks t hp) ps s (by rwa [List.map_id])
    simp only [seenOf, Prod.mk.injEq] at hsame
    rw [if_neg hq, if_neg hq, List.append_nil]
    exact hsame.2

end Cancels

theorem foldl_cancelGauges {counts : Want → WantPeerCnts} : ∀ (ks : List Want)
    (pwm : PeerWantManager),
    (ks.foldl (cancelGauges counts) pwm).peerWants = pwm.peerWants ∧
      (ks.foldl (cancelGauges counts) pwm).broadcastWants = pwm.broadcastWants ∧
      (ks.foldl (cancelGauges counts) pwm).wantPeers = pwm.wantPeers
  | [], _ => ⟨rfl, rfl, rfl⟩
  | k :: ks, pwm => foldl_cancelGauges ks (cancelGauges counts pwm k)

theorem linked_foldl_erase {w : Want} {q : PeerID} : ∀ (ks : List Want)
    (m : GoMap Want (GoSet PeerID)),
    GoMap.Linked (ks.foldl (fun m c => m.erase c) m) w q ↔ m.Linked w q ∧ w ∉ ks
  | [], m => by simp
  | k :: ks, m => by
      rw [List.foldl_cons, linked_foldl_erase ks, GoMap.linked_erase, List.mem_cons]
      grind

/-- **`sendCancels`.**  A peer is sent a cancel for just those keys that it was
sent a want for, targeted or broadcast, and the record forgets the keys. -/
structure Cancelled (ks : List Want) (pwm : PeerWantManager) (r : PeerWantManager × Calls) :
    Prop where
  broadcastWants : ∀ w, w ∈ r.1.broadcastWants ↔ w ∈ pwm.broadcastWants ∧ w ∉ ks
  absent : ∀ q, pwm.peerWants.lookup q = none → r.1.peerWants.lookup q = none
  peer : ∀ q pws, pwm.peerWants.lookup q = some pws → ∃ pws' tc,
    r.1.peerWants.lookup q = some pws' ∧ Without ks pws pws' ∧
    (∀ w, w ∈ tc ↔ w ∈ ks ∧ (w ∈ pwm.broadcastWants ∨ pws.has w = true)) ∧
    callsTo r.2 q = if tc.isEmpty then [] else [.addCancels tc]
  linked : ∀ w q, r.1.wantPeers.Linked w q ↔ pwm.wantPeers.Linked w q ∧ w ∉ ks

theorem nodup_cancelPeers (pwm : PeerWantManager) (bc ks : List Want) :
    (pwm.cancelPeers bc ks).Nodup := by
  rw [cancelPeers]
  split
  · exact (GoSet.ofList _).keys_nodup
  · exact pwm.peerWants.keys_nodup

/-- A peer that a cancel does not look at was sent none of the keys. -/
theorem not_sent_of_not_visited {pwm : PeerWantManager} {ks : List Want} (h : pwm.IndexExact)
    {q : PeerID} {pws : PeerWant} (hq : pwm.peerWants.lookup q = some pws)
    (hvisit : q ∉ pwm.cancelPeers (ks.filter pwm.broadcastWants.has) ks) :
    ∀ w ∈ ks, pws.has w = false ∧ w ∉ pwm.broadcastWants := by
  unfold cancelPeers at hvisit
  split at hvisit
  · rename_i hbc
    intro w hw
    refine ⟨?_, fun hbw => ?_⟩
    · by_contra hhas
      rw [Bool.not_eq_false] at hhas
      refine hvisit ?_
      show q ∈ GoSet.ofList (ks.flatMap pwm.peersOf)
      rw [GoSet.mem_ofList, List.mem_flatMap]
      exact ⟨w, hw, mem_peersOf.mpr ((h w q).mpr ⟨pws, hq, hhas⟩)⟩
    · have hin : w ∈ ks.filter pwm.broadcastWants.has := by simp [hw, hbw]
      rw [List.isEmpty_iff.mp hbc] at hin
      exact absurd hin List.not_mem_nil
  · exact absurd (AList.mem_keys.mpr (GoMap.mem_of_lookup hq)) hvisit

theorem sendCancels_spec {pwm : PeerWantManager} (ks : List Want) (o : RangeOrder)
    (h : pwm.IndexExact) : Cancelled ks pwm (pwm.sendCancels ks o) := by
  rw [sendCancels]
  split
  · rename_i hks
    obtain rfl := List.isEmpty_iff.mp hks
    exact ⟨fun w => by simp, fun _ hq => hq,
      fun q pws hq => ⟨pws, [], hq, ⟨fun w => by simp, fun w => by simp⟩, fun w => by simp, rfl⟩,
      fun w q => by simp⟩
  · dsimp only
    set bc := ks.filter pwm.broadcastWants.has with hbc
    have hmem : ∀ w, w ∈ bc ↔ w ∈ ks ∧ w ∈ pwm.broadcastWants := by simp [hbc]
    obtain ⟨hb, hw, hs⟩ :=
      foldl_sendCancelsTo_spec bc ks (o.range (pwm.cancelPeers bc ks)) (pwm, [])
      (RangeOrder.nodup_range.mpr (nodup_cancelPeers pwm bc ks))
    set s := (o.range (pwm.cancelPeers bc ks)).foldl (sendCancelsTo bc ks) (pwm, [])
    obtain ⟨hgp, hgb, hgw⟩ := @foldl_cancelGauges pwm.wantPeerCounts ks s.1
    refine ⟨fun w => ?_, fun q hq => ?_, fun q pws hq => ?_, fun w q => ?_⟩
    · dsimp only
      rw [GoSet.mem_foldl_remove, hgb, hb, hmem]
      grind
    · dsimp only
      rw [hgp, (hs q).1, hq]
      simp
    · dsimp only
      simp only [hgp, (hs q).1, (hs q).2, RangeOrder.mem_range, hq]
      by_cases hvisit : q ∈ pwm.cancelPeers bc ks
      · obtain ⟨hwo, htc⟩ := @foldl_cancelKey_spec pwm.broadcastWants ks (pws, bc)
        refine ⟨_, (cancelled bc ks pwm.broadcastWants pws).2, by simp [hvisit, cancelled], hwo,
          fun w => ?_, ?_⟩
        · rw [show w ∈ (cancelled bc ks pwm.broadcastWants pws).2 ↔ _ from htc w, hmem]
          grind
        · simp [hvisit, cancelCall, callsTo]
      · have hnone := not_sent_of_not_visited h hq hvisit
        have hsep : ∀ w ∈ ks, w ∉ pws.wantBlocks ∧ w ∉ pws.wantHaves := fun w hwk =>
          not_or.mp fun h' => by
            have hfalse := (hnone w hwk).1
            rw [PeerWant.has_eq_true.mpr h'] at hfalse
            exact absurd hfalse (by simp)
        refine ⟨pws, [], by simp [hvisit], ⟨fun w => ?_, fun w => ?_⟩, fun w => ?_, by
          simp [hvisit, callsTo]⟩
        · exact ⟨fun hb => ⟨hb, fun hk => (hsep w hk).1 hb⟩, fun h' => h'.1⟩
        · exact ⟨fun hb => ⟨hb, fun hk => (hsep w hk).2 hb⟩, fun h' => h'.1⟩
        · constructor
          · intro h'; exact absurd h' List.not_mem_nil
          · rintro ⟨hk, h' | h'⟩
            · exact absurd h' (hnone w hk).2
            · rw [(hnone w hk).1] at h'
              exact absurd h' (by simp)
    · dsimp only
      rw [linked_foldl_erase, hgw, hw]

theorem indexExact_sendCancels {pwm : PeerWantManager} (ks : List Want) (o : RangeOrder)
    (h : pwm.IndexExact) : (pwm.sendCancels ks o).1.IndexExact := by
  have hc := sendCancels_spec ks o h
  intro w q
  rw [hc.linked, h w q]
  cases hq : pwm.peerWants.lookup q with
  | none => simp [hc.absent q hq]
  | some pws =>
      obtain ⟨pws', _, hq', hwo, -⟩ := hc.peer q pws hq
      rw [hq']
      simp [hwo.has]

/-! ## The index has no want without a peer -/

theorem nonemptySets_removePeer {pwm : PeerWantManager} (p : PeerID) (ob oh : RangeOrder)
    (h : pwm.wantPeers.NonemptySets) : (pwm.removePeer p ob oh).wantPeers.NonemptySets := by
  rw [removePeer]
  split
  · exact h
  · have hb : ∀ (pwm : PeerWantManager) w, pwm.wantPeers.NonemptySets →
        (dropWantBlock p pwm w).wantPeers.NonemptySets := fun pwm w h => h.unlink w p
    have hh : ∀ (pwm : PeerWantManager) w, pwm.wantPeers.NonemptySets →
        (dropWantHave p pwm w).wantPeers.NonemptySets := fun pwm w h => h.unlink w p
    exact run_invariant hh _ (run_invariant hb _ h)

theorem nonemptySets_sendWantBlock (p : PeerID) (s : PeerWantManager × List Want) (c : Want)
    (h : s.1.wantPeers.NonemptySets) : (sendWantBlock p s c).1.wantPeers.NonemptySets := by
  rw [sendWantBlock]
  split
  · exact h
  · split
    · exact h
    · exact h.link c p

theorem nonemptySets_sendWantHave (p : PeerID) (s : PeerWantManager × List Want) (c : Want)
    (h : s.1.wantPeers.NonemptySets) : (sendWantHave p s c).1.wantPeers.NonemptySets := by
  rw [sendWantHave]
  split
  · exact h
  · split
    · exact h
    · split
      · exact h
      · exact h.link c p

theorem nonemptySets_sendWants {pwm : PeerWantManager} (p : PeerID) (bs hs : List Want)
    (h : pwm.wantPeers.NonemptySets) : (pwm.sendWants p bs hs).1.wantPeers.NonemptySets := by
  rw [sendWants]
  split
  · let I : PeerWantManager × List Want → Prop := fun s => s.1.wantPeers.NonemptySets
    have hb := run_invariant (I := I) (nonemptySets_sendWantBlock p) bs (s := (pwm, [])) h
    exact run_invariant (I := I) (nonemptySets_sendWantHave p) hs (s := (_, [])) hb
  · exact h

theorem nonemptySets_sendCancels {pwm : PeerWantManager} (ks : List Want) (o : RangeOrder)
    (h : pwm.wantPeers.NonemptySets) : (pwm.sendCancels ks o).1.wantPeers.NonemptySets := by
  rw [sendCancels]
  split
  · exact h
  · dsimp only
    set bc := ks.filter pwm.broadcastWants.has
    obtain ⟨-, hw, -⟩ :=
      foldl_sendCancelsTo_spec bc ks (o.range (pwm.cancelPeers bc ks)) (pwm, [])
      (RangeOrder.nodup_range.mpr (nodup_cancelPeers pwm bc ks))
    obtain ⟨-, -, hgw⟩ := @foldl_cancelGauges pwm.wantPeerCounts ks
      ((o.range (pwm.cancelPeers bc ks)).foldl (sendCancelsTo bc ks) (pwm, [])).1
    rw [hgw, hw]
    have herase : ∀ (m : GoMap Want (GoSet PeerID)) (c : Want), m.NonemptySets →
        GoMap.NonemptySets (m.erase c) := fun m c hm => hm.erase c
    exact run_invariant herase ks h

end PeerWantManager

end BitswapAuth
